import BlockHost.Heap.Blocks
import BlockHost.Proofs.HeapBooks
import BlockHost.Proofs.SizeClasses

/-!
# The operations on blocks keep the books

One lemma for each operation: from right books it ends in right books, and it never comes to a
halt on its way. What the books say afterwards is the whole meaning of the operation, because
the books hold the content of every payload: a lease that stays in them was not touched.

An operation that takes a block out of the books and puts it back does so through a loose block.
The places where memory is written are those where a block is loose.
-/

namespace BlockHost.Heap

/-! ## Links -/

theorem link_eq {i start : Nat} (hstart : start < 2 ^ 32) : link i start = i * 2 ^ 32 + start := by
  rw [link, ← Nat.shiftLeft_add_eq_or_of_lt hstart, Nat.shiftLeft_eq]

theorem linkSegment_link {i start : Nat} (hstart : start < 2 ^ 32) :
    linkSegment (link i start) = i := by
  rw [linkSegment, link_eq hstart, Nat.shiftRight_eq_div_pow]
  omega

theorem linkStart_link {i start : Nat} (hstart : start < 2 ^ 32) :
    linkStart (link i start) = start := by
  rw [linkStart, link_eq hstart]
  omega

section Places

variable {h : Heap} {k : Books} {b : Block}

/-- The numbers that a block of the books is made of are small. -/
theorem Booked.bounds (hk : Booked h k) (hb : b ∈ k.blocks) :
    b.segment < 16 ∧ b.start + b.size < 2 ^ 32 ∧ leastBlock ≤ b.size := by
  have hseg := (hk.fits hb).segment_lt hk.tiled.sound
  have hcount := hk.tiled.sound.count_le
  have hmax := hk.tiled.sound.regions_le
  unfold regionLimit at hmax
  exact ⟨by omega, (hk.fits hb).stop_lt hk.tiled.sound, (hk.fits hb).size_ge⟩

theorem Booked.mem_of_free (_ : Booked h k) (hb : b ∈ k.free) : b ∈ k.blocks :=
  List.mem_append_right _ (List.mem_append_left _ hb)

theorem Booked.mem_of_filed (hk : Booked h k) {c : SizeClass} (hb : b ∈ k.filed c) :
    b ∈ k.blocks :=
  hk.mem_of_free (List.mem_filter.1 hb).1

theorem Booked.link_lt (hk : Booked h k) (hb : b ∈ k.blocks) : link b.segment b.start < noLink := by
  obtain ⟨hseg, hstop, -⟩ := hk.bounds hb
  rw [link_eq (by omega), noLink]
  omega

/-- The head of a class is a 64-bit number, and leads nowhere only when the class is empty. -/
theorem Booked.head_lt (hk : Booked h k) (c : SizeClass) : h.heads.get c < 2 ^ 64 := by
  have hl := hk.linked c
  cases hf : k.filed c with
  | nil =>
      rw [hf] at hl
      rw [show h.heads.get c = noLink from hl, noLink]
      omega
  | cons b rest =>
      rw [hf] at hl
      have hlt := hk.link_lt (hk.mem_of_filed (hf ▸ List.mem_cons_self))
      rw [hl.1]
      unfold noLink at hlt
      omega

end Places

/-! ## Headers -/

section Headers

variable {h : Heap} {L : List Lease} {F U : List Block} {b : Block}
variable {m : Memory} {i start size tag next x : Nat}

/-- A memory with a header in it. -/
def headed (m : Memory) (start size tag : Nat) : Memory :=
  (m.store start (Bytes.ofNat 4 size)).store (start + 4) (Bytes.ofNat 4 tag)

/-- A memory with the header of a free block in it, and behind it the link to the next one. -/
def chained (m : Memory) (start size next : Nat) : Memory :=
  (headed m start size freeTag).store (start + headerSize) (Bytes.ofNat 8 next)

theorem headed_size (hsize : size < 2 ^ 32) : (headed m start size tag).number start 4 = size := by
  rw [headed, Memory.number_store_of_disjoint (Or.inl (Nat.le_refl _))]
  exact Memory.number_store _ _ _ _ hsize

theorem headed_tag (htag : tag < 2 ^ 32) :
    (headed m start size tag).number (start + 4) 4 = tag :=
  Memory.number_store _ _ _ _ htag

theorem byteAt_headed (hx : x < start ∨ start + headerSize ≤ x) :
    (headed m start size tag).byteAt x = m.byteAt x := by
  unfold headerSize at hx
  rw [headed, Memory.byteAt_store_of_outside (by rw [Bytes.length_ofNat]; omega),
    Memory.byteAt_store_of_outside (by rw [Bytes.length_ofNat]; omega)]

theorem chained_size (hsize : size < 2 ^ 32) :
    (chained m start size next).number start 4 = size := by
  rw [chained, Memory.number_store_of_disjoint (Or.inl (by unfold headerSize; omega))]
  exact headed_size hsize

theorem chained_tag : (chained m start size next).number (start + 4) 4 = freeTag := by
  rw [chained, Memory.number_store_of_disjoint (Or.inl (by unfold headerSize; omega))]
  exact headed_tag (by decide)

theorem chained_next (hnext : next < 2 ^ 64) :
    (chained m start size next).number (start + headerSize) 8 = next :=
  Memory.number_store _ _ _ _ hnext

theorem byteAt_chained (hx : x < start ∨ start + 2 * headerSize ≤ x) :
    (chained m start size next).byteAt x = m.byteAt x := by
  unfold headerSize at hx
  rw [chained, Memory.byteAt_store_of_outside (by rw [Bytes.length_ofNat, headerSize]; omega),
    byteAt_headed (by unfold headerSize; omega)]

theorem writeHeader_ok (hi : i < h.segments.length) (hlen : start + headerSize ≤ h.lengthAt i) :
    writeHeader i start size tag h
      = .ok () (h.withMemory i (headed (h.memoryAt i) start size tag)) := by
  unfold headerSize at hlen
  have hfirst : Heap.store i start (Bytes.ofNat 4 size) h
      = .ok () (h.withMemory i ((h.memoryAt i).store start (Bytes.ofNat 4 size))) :=
    store_ok hi (by rw [Bytes.length_ofNat]; omega)
  have hsecond : Heap.store i (start + 4) (Bytes.ofNat 4 tag)
      (h.withMemory i ((h.memoryAt i).store start (Bytes.ofNat 4 size)))
        = .ok () (h.withMemory i (headed (h.memoryAt i) start size tag)) := by
    rw [store_ok (by rwa [length_segments_withMemory])
      (by rw [Bytes.length_ofNat, lengthAt_withMemory]; omega),
      memoryAt_withMemory _ _ _ _ hi, if_pos rfl, withMemory_withMemory]
    rfl
  rw [writeHeader, Action.bind_ok hfirst]
  exact hsecond

theorem Booked.writeHeader (hk : Booked h ⟨L, F, b :: U⟩) (size tag : Nat) :
    Heap.writeHeader b.segment b.start size tag h
        = .ok () (h.withMemory b.segment (headed (h.memoryAt b.segment) b.start size tag)) ∧
      Booked (h.withMemory b.segment (headed (h.memoryAt b.segment) b.start size tag))
        ⟨L, F, b :: U⟩ := by
  have hseg := hk.segment_lt (b := b) List.mem_cons_self
  have hlen := hk.stop_le_length (b := b) List.mem_cons_self
  obtain ⟨-, -, hleast⟩ := hk.bounds (b := b) List.mem_cons_self
  unfold leastBlock at hleast
  exact ⟨writeHeader_ok hseg (by unfold headerSize; omega),
    hk.withMemory fun x hx => byteAt_headed (by unfold headerSize; omega)⟩

end Headers

/-! ## Filing -/

section Filing

variable {h : Heap} {L : List Lease} {F U : List Block} {b : Block}

theorem filed_cons (b : Block) (c : SizeClass) :
    (Books.mk L (b :: F) U).filed c =
      if SizeClass.floor b.size = c then b :: (Books.mk L F U).filed c
      else (Books.mk L F U).filed c := by
  simp only [Books.filed, List.filter_cons, decide_eq_true_eq]

/-- The heap with another head for a class. -/
def withHead (h : Heap) (c : SizeClass) (first : Nat) : Heap :=
  { h with heads := h.heads.set c first c.isLt }

theorem get_heads_withHead (h : Heap) (c d : SizeClass) (first : Nat) :
    (h.withHead c first).heads.get d = if c = d then first else h.heads.get d := by
  show (h.heads.set c first)[d] = _
  simp only [Fin.getElem_fin, Vector.getElem_set, ← Fin.ext_iff]
  rfl

/-- The heap with a block at the head of its class. -/
def pushed (h : Heap) (b : Block) : Heap :=
  { h.withHead (SizeClass.floor b.size) (link b.segment b.start) with
    occupied := h.occupied ||| BitVec.twoPow classCount (SizeClass.floor b.size).val }

theorem getLsbD_pushed (h : Heap) (b : Block) (c : SizeClass) :
    (h.pushed b).occupied.getLsbD c = true ↔
      h.occupied.getLsbD c = true ∨ SizeClass.floor b.size = c := by
  simp only [pushed, BitVec.getLsbD_or, BitVec.getLsbD_twoPow, Bool.or_eq_true,
    Bool.and_eq_true, decide_eq_true_eq, Fin.ext_iff, Fin.isLt, true_and]

theorem Booked.push (hk : Booked h ⟨L, F, b :: U⟩) (hmarked : b.Marked h.memoryAt freeTag)
    (hnext : (h.memoryAt b.segment).number (b.start + headerSize) 8
      = h.heads.get (SizeClass.floor b.size)) :
    Booked (h.pushed b) ⟨L, b :: F, U⟩ := by
  constructor
  case tiled => exact hk.tiled.perm List.perm_middle.symm
  case held => exact hk.held
  case marked =>
    intro c hc
    rcases List.mem_cons.mp hc with rfl | hc
    · exact hmarked
    · exact hk.marked c hc
  case linked =>
    intro c
    have hold := hk.linked c
    rw [filed_cons]
    show Linked h.memoryAt
      ((h.withHead (SizeClass.floor b.size) (link b.segment b.start)).heads.get c) _
    rw [get_heads_withHead]
    split
    · next hc =>
        subst hc
        refine ⟨rfl, ?_⟩
        rw [hnext]
        exact hold
    · exact hold
  case occupied =>
    intro c
    have hold := hk.occupied c
    rw [filed_cons, getLsbD_pushed]
    split
    · next hc => simp [hc]
    · next hc =>
        simp only [hc, or_false]
        exact hold

/-- The heap with a block at the head of its class, and its header and link in the memory. -/
def filed (h : Heap) (b : Block) : Heap :=
  (h.withMemory b.segment (chained (h.memoryAt b.segment) b.start b.size
    (h.heads.get (SizeClass.floor b.size)))).pushed b

theorem file_ok (hseg : b.segment < h.segments.length)
    (hlen : b.start + 2 * headerSize ≤ h.lengthAt b.segment) :
    Heap.file b h = .ok () (h.filed b) := by
  unfold headerSize at hlen
  have hheader : Heap.writeHeader b.segment b.start b.size freeTag h
      = .ok () (h.withMemory b.segment (headed (h.memoryAt b.segment) b.start b.size freeTag)) :=
    writeHeader_ok hseg (by unfold headerSize; omega)
  have hlink : Heap.store b.segment (b.start + headerSize)
      (Bytes.ofNat 8 (h.heads.get (SizeClass.floor b.size)))
      (h.withMemory b.segment (headed (h.memoryAt b.segment) b.start b.size freeTag))
        = .ok () (h.withMemory b.segment (chained (h.memoryAt b.segment) b.start b.size
          (h.heads.get (SizeClass.floor b.size)))) := by
    rw [store_ok (by rwa [length_segments_withMemory])
      (by rw [Bytes.length_ofNat, lengthAt_withMemory, headerSize]; omega),
      memoryAt_withMemory _ _ _ _ hseg, if_pos rfl, withMemory_withMemory]
    rfl
  rw [Heap.file, Action.get_bind, Action.bind_ok hheader]
  exact (Action.bind_ok hlink).trans rfl

theorem Booked.filed (hk : Booked h ⟨L, F, b :: U⟩) :
    Booked (h.filed b) ⟨L, b :: F, U⟩ ∧ Undisturbed h (h.filed b) ∧
      (h.filed b).ground = h.ground := by
  have hmem : b ∈ (Books.mk L F (b :: U)).blocks := List.mem_cons_self
  have hseg := hk.segment_lt hmem
  obtain ⟨-, hstop, hleast⟩ := hk.bounds hmem
  unfold leastBlock at hleast
  refine ⟨Booked.push ?_ ?_ ?_, ?_, ground_withMemory h b.segment _⟩
  · exact hk.withMemory fun x hx => byteAt_chained (by unfold headerSize; omega)
  · refine ⟨?_, ?_⟩ <;> rw [memoryAt_withMemory _ _ _ _ hseg, if_pos rfl]
    · exact chained_size (by omega)
    · exact chained_tag
  · rw [memoryAt_withMemory _ _ _ _ hseg, if_pos rfl]
    exact chained_next (hk.head_lt _)
  · exact (undisturbed_withMemory h b.segment _).trans
      ⟨rfl, rfl, rfl, rfl, rfl, rfl, rfl, rfl, fun _ => rfl⟩

theorem Booked.file (hk : Booked h ⟨L, F, b :: U⟩) :
    ∃ h', Heap.file b h = .ok () h' ∧ Booked h' ⟨L, b :: F, U⟩ ∧ Undisturbed h h' ∧
      h'.ground = h.ground := by
  have hmem : b ∈ (Books.mk L F (b :: U)).blocks := List.mem_cons_self
  have hlen := hk.stop_le_length hmem
  obtain ⟨-, -, hleast⟩ := hk.bounds hmem
  unfold leastBlock at hleast
  exact ⟨_, file_ok (hk.segment_lt hmem) (by unfold headerSize; omega), hk.filed⟩

/-- The heap without the head of a class, which links to `next`. -/
def popped (h : Heap) (c : SizeClass) (next : Nat) : Heap :=
  { h.withHead c next with
    occupied := if next = noLink then h.occupied &&& ~~~(BitVec.twoPow classCount c.val)
      else h.occupied }

theorem Linked.eq_nil_iff {memory : Nat → Memory} {first : Nat} {bs : List Block}
    (hl : Linked memory first bs) (hlt : ∀ b ∈ bs, link b.segment b.start < noLink) :
    first = noLink ↔ bs = [] := by
  cases bs with
  | nil => exact ⟨fun _ => rfl, fun _ => hl⟩
  | cons b rest =>
      have hb := hlt b List.mem_cons_self
      rw [hl.1]
      exact ⟨fun heq => absurd heq (Nat.ne_of_lt hb), fun heq => by cases heq⟩

section Unlink

variable {before after : List Block} {c : SizeClass}

/-- Behind the head of its class stand the other blocks of the class. -/
theorem filed_head (hbefore : ∀ x ∈ before, SizeClass.floor x.size ≠ c)
    (hb : SizeClass.floor b.size = c) (U' : List Block) :
    (Books.mk L (before ++ b :: after) U).filed c
      = b :: (Books.mk L (before ++ after) U').filed c := by
  have hnil : before.filter (fun x => SizeClass.floor x.size = c) = [] :=
    List.filter_eq_nil_iff.2 fun x hx => by simpa using hbefore x hx
  simp only [Books.filed, List.filter_append, hnil, List.nil_append]
  exact List.filter_cons_of_pos (by simpa using hb)

theorem filed_other (hb : SizeClass.floor b.size = c) (U' : List Block) {d : SizeClass}
    (hd : d ≠ c) : (Books.mk L (before ++ after) U').filed d
      = (Books.mk L (before ++ b :: after) U).filed d := by
  have hdrop : (b :: after).filter (fun x => SizeClass.floor x.size = d)
      = after.filter fun x => SizeClass.floor x.size = d :=
    List.filter_cons_of_neg (by simpa [hb] using Ne.symm hd)
  simp only [Books.filed, List.filter_append, hdrop]

/-- Taking out the head of a class clears the bit of the class when no other block is left
there, and leaves the bits of the other classes. -/
theorem getLsbD_popped (h : Heap) (c d : SizeClass) (next : Nat) :
    (h.popped c next).occupied.getLsbD d = true ↔
      h.occupied.getLsbD d = true ∧ ¬ (d = c ∧ next = noLink) := by
  simp only [popped]
  split
  · next hno =>
      rw [BitVec.getLsbD_and, BitVec.getLsbD_not, BitVec.getLsbD_twoPow, Bool.and_eq_true]
      refine and_congr_right fun _ => ?_
      simp only [c.isLt, d.isLt, decide_true, Bool.true_and, Bool.not_eq_true',
        decide_eq_false_iff_not, hno, and_true, Fin.ext_iff]
      exact not_congr eq_comm
  · next hno => simp only [hno, and_false, not_false_eq_true, and_true]

theorem Booked.pop {next : Nat} (hk : Booked h ⟨L, before ++ b :: after, U⟩)
    (hbefore : ∀ x ∈ before, SizeClass.floor x.size ≠ c) (hb : SizeClass.floor b.size = c)
    (hnext : (h.memoryAt b.segment).number (b.start + headerSize) 8 = next) :
    Booked (h.popped c next) ⟨L, before ++ after, b :: U⟩ := by
  have hwhole : (Books.mk L (before ++ b :: after) U).filed c
      = b :: (Books.mk L (before ++ after) (b :: U)).filed c := filed_head hbefore hb (b :: U)
  have hlinked := hk.linked c
  rw [hwhole] at hlinked
  obtain ⟨-, hlinked⟩ := hlinked
  rw [hnext] at hlinked
  constructor
  case tiled =>
    refine hk.tiled.perm ?_
    simp only [Books.blocks, List.append_assoc, List.cons_append]
    have hmove : (U ++ (before ++ b :: (after ++ L.map Lease.block))).Perm
        (b :: (U ++ before ++ (after ++ L.map Lease.block))) := by
      rw [← List.append_assoc]
      exact List.perm_middle
    rwa [List.append_assoc] at hmove
  case held => exact hk.held
  case marked =>
    intro x hx
    refine hk.marked x ?_
    rcases List.mem_append.mp hx with hx | hx
    · exact List.mem_append_left _ hx
    · exact List.mem_append_right _ (List.mem_cons_of_mem _ hx)
  case linked =>
    intro d
    show Linked h.memoryAt ((h.withHead c next).heads.get d) _
    rw [get_heads_withHead]
    split
    · next hd =>
        subst hd
        exact hlinked
    · next hd =>
        rw [filed_other hb _ (Ne.symm hd)]
        exact hk.linked d
  case occupied =>
    intro d
    rw [getLsbD_popped, hk.occupied d]
    by_cases hd : d = c
    · subst hd
      have hlt : ∀ x ∈ (Books.mk L (before ++ after) (b :: U)).filed d,
          link x.segment x.start < noLink := by
        intro x hx
        refine hk.link_lt (hk.mem_of_free ?_)
        rcases List.mem_append.1 (List.mem_filter.1 hx).1 with hx | hx
        · exact List.mem_append_left _ hx
        · exact List.mem_append_right _ (List.mem_cons_of_mem _ hx)
      rw [hwhole]
      refine Iff.trans ⟨fun hbit hno => hbit.2 ⟨rfl, hno⟩, fun hno => ?_⟩
        (not_congr (hlinked.eq_nil_iff hlt))
      exact ⟨List.cons_ne_nil _ _, fun hboth => hno hboth.2⟩
    · rw [filed_other (U := U) hb (b :: U) hd]
      exact ⟨fun hbit => hbit.1, fun hne => ⟨hne, fun heq => hd heq.1⟩⟩

end Unlink

/-- Taking out of a class that is not empty gives its first block. -/
theorem Booked.unfile (hk : Booked h ⟨L, F, U⟩) {c : SizeClass} (hc : h.occupied.getLsbD c = true) :
    ∃ b rest h', (Books.mk L F U).filed c = b :: rest ∧ Heap.unfile c h = .ok b h' ∧
      SizeClass.floor b.size = c ∧ Booked h' ⟨L, F.erase b, b :: U⟩ ∧ Undisturbed h h' ∧
      h'.ground = h.ground := by
  obtain ⟨b, rest, hfiled⟩ : ∃ b rest, (Books.mk L F U).filed c = b :: rest :=
    List.exists_cons_of_ne_nil ((hk.occupied c).1 hc)
  have hmem : b ∈ (Books.mk L F U).blocks :=
    hk.mem_of_filed (c := c) (hfiled ▸ List.mem_cons_self)
  obtain ⟨before, after, hF, hbefore, hb, -⟩ := List.filter_eq_cons_iff.1 hfiled
  simp only [decide_eq_true_eq] at hb hbefore
  simp only at hF
  have hhead := hk.linked c
  rw [hfiled] at hhead
  obtain ⟨-, hstop, hleast⟩ := hk.bounds hmem
  have hseg := hk.segment_lt hmem
  have hlen := hk.stop_le_length hmem
  unfold leastBlock at hleast
  have hposition : linkSegment h.heads[c] = b.segment :=
    (congrArg linkSegment hhead.1).trans (linkSegment_link (by omega))
  have hstart : linkStart h.heads[c] = b.start :=
    (congrArg linkStart hhead.1).trans (linkStart_link (by omega))
  have hsize : Bytes.toNat ((h.memoryAt b.segment).load b.start 4) = b.size := by
    refine (hk.marked b ?_).size_eq
    rw [hF]
    exact List.mem_append_right _ List.mem_cons_self
  have herase : F.erase b = before ++ after := by
    have hnotin : b ∉ before := fun hmem => hbefore b hmem hb
    rw [hF, List.erase_append_right _ hnotin, List.erase_cons_head]
  have hpop := (hF ▸ hk).pop hbefore hb rfl
  rw [← herase] at hpop
  refine ⟨b, rest, _, hfiled, ?_, hb, hpop,
    ⟨rfl, rfl, rfl, rfl, rfl, rfl, rfl, rfl, fun _ => rfl⟩, rfl⟩
  have hload : Heap.load b.segment (b.start + headerSize) 8 h
      = .ok ((h.memoryAt b.segment).load (b.start + headerSize) 8) h :=
    load_ok hseg (by unfold headerSize; omega)
  rw [Heap.unfile, Action.get_bind]
  simp only [hposition, hstart]
  rw [Action.bind_ok hload]
  -- Whether the bit is cleared or not, the size is then read from a heap with the same memory.
  have hsame : ∀ h' : Heap, h'.segments = h.segments →
      (do return ⟨b.segment, b.start, Bytes.toNat (← Heap.load b.segment b.start 4)⟩ :
        HeapAction Block) h' = .ok b h' := by
    intro h' hh'
    have hat : h'.memoryAt b.segment = h.memoryAt b.segment := by
      simp only [memoryAt, hh']
    have hlength : h'.lengthAt b.segment = h.lengthAt b.segment := by
      simp only [lengthAt, hh']
    rw [Action.bind_ok (load_ok (by rw [hh']; exact hseg) (by rw [hlength]; omega)), hat, hsize]
    rfl
  by_cases hno : Bytes.toNat ((h.memoryAt b.segment).load (b.start + headerSize) 8) = noLink
  · simp only [popped, Memory.number, hno, ↓reduceIte]
    rw [Action.modify_bind, Action.modify_bind]
    exact hsame _ rfl
  · simp only [popped, Memory.number, hno, ↓reduceIte]
    rw [Action.modify_bind]
    exact hsame _ rfl

end Filing

end BlockHost.Heap
