import BlockHost.Proofs.BlockSteps

/-!
# Words that read as headers

A pointer is checked by the eight bytes in front of where it points: they have to read as the header of a used
block. So it matters at which places of the memory there are such bytes. The heap puts them there in one way
only, as the header of a block that it hands out. What else it writes is a header with the other tag, or
a link, whose upper half is the number of a segment or all ones; and what it leaves standing stands where it
stood. This is said of each operation by naming the places where such bytes can have come to be (`OnlyAt`).
Beside the header of a block that is handed out, these lie in the payloads that clients write to or that
content is copied to.

Blocks, and so headers and links, lie on the eight-byte grid. A word is therefore either written as a whole
or left alone, except in payloads.
-/

namespace BlockHost

theorem Bytes.toNat_append (as bs : Bytes) :
    toNat (as ++ bs) = toNat as + 256 ^ as.length * toNat bs := by
  induction as with
  | nil => simp [toNat]
  | cons a as ih =>
      rw [List.cons_append, toNat, ih, toNat, List.length_cons, Nat.pow_succ, Nat.mul_add]
      rw [show 256 ^ as.length * 256 * toNat bs = 256 * (256 ^ as.length * toNat bs) by
        rw [Nat.mul_comm (256 ^ as.length) 256, Nat.mul_assoc]]
      omega

namespace Memory

variable {m m' : Memory} {start size tag next x : Nat}

/-- The upper half of a 64-bit word. -/
theorem number_upper (m : Memory) (x : Nat) : m.number (x + 4) 4 = m.number x 8 / 2 ^ 32 := by
  have hsplit : m.load x 8 = m.load x 4 ++ m.load (x + 4) 4 := by
    rw [load, load, load, ← List.map_append]
    rfl
  have hlow := Bytes.toNat_lt (m.load x 4)
  rw [number, number, hsplit, Bytes.toNat_append]
  rw [length_load] at hlow ⊢
  omega

/-- Eight bytes read as the header of a used block. -/
def ReadsUsed (m : Memory) (x : Nat) : Prop :=
  leastBlock ≤ m.number x 4 ∧ m.number (x + 4) 4 = Heap.usedTag

instance (m : Memory) (x : Nat) : Decidable (m.ReadsUsed x) :=
  inferInstanceAs (Decidable (_ ∧ _))

theorem ReadsUsed.congr (hm : m'.ReadsUsed x)
    (hsame : ∀ y, x ≤ y → y < x + 8 → m'.byteAt y = m.byteAt y) : m.ReadsUsed x := by
  have hsize : m'.number x 4 = m.number x 4 :=
    number_congr fun y hlow hhigh => hsame y hlow (by omega)
  have htag : m'.number (x + 4) 4 = m.number (x + 4) 4 :=
    number_congr fun y hlow hhigh => hsame y (by omega) (by omega)
  rw [ReadsUsed, hsize, htag] at hm
  exact hm

/-- A header is at no place but its own. -/
theorem readsUsed_headed (hx : x % 8 = 0) (hstart : start % 8 = 0)
    (hm : (Heap.headed m start size tag).ReadsUsed x) : x = start ∨ m.ReadsUsed x := by
  by_cases heq : x = start
  · exact Or.inl heq
  · refine Or.inr (hm.congr fun y hlow hhigh => Heap.byteAt_headed ?_)
    unfold Heap.headerSize
    omega

/-- A new size in a header is at no place but its own. -/
theorem readsUsed_resized (hx : x % 8 = 0) (hstart : start % 8 = 0)
    (hm : (m.store start (Bytes.ofNat 4 size)).ReadsUsed x) : x = start ∨ m.ReadsUsed x := by
  by_cases heq : x = start
  · exact Or.inl heq
  · refine Or.inr (hm.congr fun y hlow hhigh => byteAt_store_of_outside ?_)
    rw [Bytes.length_ofNat]
    omega

/-- A header is the header of a used block no more once its tag is that of a free one. -/
theorem readsUsed_untagged (hx : x % 8 = 0) (hstart : start % 8 = 0)
    (hm : (m.store (start + 4) (Bytes.ofNat 4 Heap.freeTag)).ReadsUsed x) :
    x ≠ start ∧ m.ReadsUsed x := by
  have hne : x ≠ start := by
    rintro rfl
    have htag := hm.2
    rw [number_store _ _ _ _ (by decide)] at htag
    exact absurd htag (by decide)
  refine ⟨hne, hm.congr fun y hlow hhigh => byteAt_store_of_outside ?_⟩
  rw [Bytes.length_ofNat]
  omega

/-- What is written to file a block reads nowhere as the header of a used one. -/
theorem readsUsed_chained (hx : x % 8 = 0) (hstart : start % 8 = 0) (hnext : next < 2 ^ 64)
    (hupper : next / 2 ^ 32 ≠ Heap.usedTag)
    (hm : (Heap.chained m start size next).ReadsUsed x) : x ≠ start ∧ m.ReadsUsed x := by
  have hne : x ≠ start := by
    rintro rfl
    have htag := hm.2
    rw [Heap.chained_tag] at htag
    exact absurd htag (by decide)
  by_cases hlink : x = start + Heap.headerSize
  · have htag := hm.2
    rw [number_upper, hlink, Heap.chained_next hnext] at htag
    exact absurd htag hupper
  · refine ⟨hne, hm.congr fun y hlow hhigh => Heap.byteAt_chained ?_⟩
    unfold Heap.headerSize at *
    omega

/-- Where the bytes of a payload change, a word that changes lies inside it. -/
theorem readsUsed_refilled {stop : Nat} (hx : x % 8 = 0) (hstart : start % 8 = 0)
    (hstop : stop % 8 = 0) (hsame : ∀ y, y < start ∨ stop ≤ y → m'.byteAt y = m.byteAt y)
    (hm : m'.ReadsUsed x) : (start ≤ x ∧ x + Heap.headerSize ≤ stop) ∨ m.ReadsUsed x := by
  by_cases hin : start ≤ x ∧ x + Heap.headerSize ≤ stop
  · exact Or.inl hin
  · refine Or.inr (hm.congr fun y hlow hhigh => hsame y ?_)
    unfold Heap.headerSize at hin
    omega

end Memory

/-- The place of the header that a pointer is checked by. -/
def Pointer.Heads (p : Pointer) (i x : Nat) : Prop :=
  p.region.toNat = i ∧ p.offset.toNat = x + Heap.headerSize

namespace Heap

/-- Eight bytes of a segment read as the header of a used block. -/
def ReadsUsed (h : Heap) (i x : Nat) : Prop :=
  (h.memoryAt i).ReadsUsed x

/-- On the grid, no place but some has come to read as the header of a used block. -/
def OnlyAt (S : Nat → Nat → Prop) (h h' : Heap) : Prop :=
  ∀ i x, x % 8 = 0 → h'.ReadsUsed i x → S i x ∨ h.ReadsUsed i x

/-- No place at all. -/
def Nowhere : Nat → Nat → Prop :=
  fun _ _ => False

/-- On the grid, no place has come to read as the header of a used block, and that of one block has
ceased to. -/
def Erases (b : Block) (h h' : Heap) : Prop :=
  ∀ i x, x % 8 = 0 → h'.ReadsUsed i x → ¬ (i = b.segment ∧ x = b.start) ∧ h.ReadsUsed i x

/-- A word of a block's payload. -/
def Block.Contains (b : Block) (i x : Nat) : Prop :=
  b.segment = i ∧ b.start + headerSize ≤ x ∧ x + headerSize ≤ b.start + b.size

section OnlyAt

variable {S T : Nat → Nat → Prop} {h h' h'' : Heap}

theorem OnlyAt.mono (ho : OnlyAt S h h') (hST : ∀ i x, S i x → T i x) : OnlyAt T h h' :=
  fun i x hx hreads => (ho i x hx hreads).imp_left (hST i x)

theorem OnlyAt.of_nowhere (ho : OnlyAt Nowhere h h') : OnlyAt S h h' :=
  ho.mono fun _ _ hno => hno.elim

theorem OnlyAt.trans (ho : OnlyAt S h h') (ho' : OnlyAt S h' h'') : OnlyAt S h h'' :=
  fun i x hx hreads => (ho' i x hx hreads).elim Or.inl (ho i x hx)

theorem onlyAt_of_memoryAt (hsame : ∀ i, h'.memoryAt i = h.memoryAt i) : OnlyAt S h h' := by
  intro i x _ hreads
  rw [ReadsUsed, hsame] at hreads
  exact Or.inr hreads

theorem onlyAt_withTop (i top : Nat) : OnlyAt S h (h.withTop i top) :=
  onlyAt_of_memoryAt fun j => memoryAt_withTop h i j top

theorem onlyAt_withMemory {i : Nat} {m : Memory} (hi : i < h.segments.length)
    (hm : ∀ x, x % 8 = 0 → m.ReadsUsed x → S i x ∨ (h.memoryAt i).ReadsUsed x) :
    OnlyAt S h (h.withMemory i m) := by
  intro j x hx hreads
  rw [ReadsUsed, memoryAt_withMemory _ _ _ _ hi] at hreads
  split at hreads
  · next heq =>
      subst heq
      exact hm x hx hreads
  · exact Or.inr hreads

theorem Erases.onlyAt {b : Block} (he : Erases b h h') : OnlyAt S h h' :=
  fun i x hx hreads => Or.inr (he i x hx hreads).2

theorem erases_withMemory {b : Block} {m : Memory} (hb : b.segment < h.segments.length)
    (hm : ∀ x, x % 8 = 0 → m.ReadsUsed x →
      x ≠ b.start ∧ (h.memoryAt b.segment).ReadsUsed x) :
    Erases b h (h.withMemory b.segment m) := by
  intro i x hx hreads
  rw [ReadsUsed, memoryAt_withMemory _ _ _ _ hb] at hreads
  split at hreads
  · next heq =>
      subst heq
      obtain ⟨hne, hold⟩ := hm x hx hreads
      exact ⟨fun hplace => hne hplace.2, hold⟩
  · next hother => exact ⟨fun hplace => hother hplace.1, hreads⟩

end OnlyAt

/-! ## Blocks that are handed out -/

section Operations

variable {S : Nat → Nat → Prop} {h h' : Heap} {k : Books} {L : List Lease} {F U : List Block}
  {b : Block} {l : Lease} {p q : Pointer} {need request : Nat}

theorem Booked.upper_head (hk : Booked h k) (c : SizeClass) :
    h.heads.get c / 2 ^ 32 ≠ usedTag := by
  have hlinked := hk.linked c
  cases hfiled : k.filed c with
  | nil =>
      rw [hfiled] at hlinked
      rw [show h.heads.get c = noLink from hlinked]
      decide
  | cons b rest =>
      obtain ⟨hseg, hstop, hleast⟩ := hk.bounds (hk.mem_of_filed (hfiled ▸ List.mem_cons_self))
      rw [hfiled] at hlinked
      unfold leastBlock at hleast
      -- The upper half of a link is the number of a segment, and there are fewer than sixteen.
      rw [hlinked.1, link_eq (by omega), usedTag]
      omega

/-- The header of a block is where its pointer is checked. -/
theorem heads_pointer (hsegment : b.segment < 16) (hstart : b.start + headerSize < 2 ^ 32) :
    b.pointer.Heads b.segment b.start := by
  unfold headerSize at hstart
  simp only [Pointer.Heads, Block.pointer, UInt32.toNat_ofNat', headerSize]
  omega

theorem erases_filed (hseg : b.segment < h.segments.length) (hmod : b.start % 8 = 0)
    (hnext : h.heads.get (SizeClass.floor b.size) < 2 ^ 64)
    (hupper : h.heads.get (SizeClass.floor b.size) / 2 ^ 32 ≠ usedTag) :
    Erases b h (h.filed b) :=
  erases_withMemory (h := h) hseg fun _ hx hreads =>
    Memory.readsUsed_chained hx hmod hnext hupper hreads

theorem onlyAt_marked (hseg : b.segment < h.segments.length) (hmod : b.start % 8 = 0)
    (hS : S b.segment b.start) : OnlyAt S h (h.marked b) :=
  onlyAt_withMemory (h := h) hseg fun x hx hreads => by
    refine (Memory.readsUsed_headed hx hmod hreads).imp_left fun heq => ?_
    rw [heq]
    exact hS

theorem Booked.onlyAt_occupy (hk : Booked h ⟨L, F, b :: U⟩) (hneed : leastBlock ≤ need)
    (hmod : need % 8 = 0) (hle : need ≤ b.size) (hrun : Heap.occupy b need h = .ok p h') :
    OnlyAt p.Heads h h' := by
  have hmem : b ∈ (Books.mk L F (b :: U)).blocks := List.mem_cons_self
  have hseg := hk.segment_lt hmem
  have hgrid := (hk.fits hmem).start_mod
  obtain ⟨hsegment, hstop, hleast⟩ := hk.bounds hmem
  rw [occupy_ok hseg (hk.stop_le_length hmem) hneed hle] at hrun
  cases hrun
  have hplace : (b.part need).segment = b.segment ∧ (b.part need).start = b.start := by
    rw [Block.part]
    split <;> exact ⟨rfl, rfl⟩
  obtain ⟨hpsegment, hpstart⟩ := hplace
  unfold leastBlock at hleast
  have hheads : (b.part need).pointer.Heads (b.part need).segment (b.part need).start :=
    heads_pointer (by omega) (by unfold headerSize; omega)
  have htrim : OnlyAt (b.part need).pointer.Heads h (h.trimmed b need) ∧
      (h.trimmed b need).segments.length = h.segments.length := by
    rw [trimmed]
    split
    · exact ⟨(erases_filed (b := ⟨b.segment, b.start + need, b.size - need⟩) hseg
        (by simp only; omega) (hk.head_lt _) (hk.upper_head _)).onlyAt,
        length_segments_withMemory _ _ _⟩
    · exact ⟨onlyAt_of_memoryAt fun _ => rfl, rfl⟩
  exact htrim.1.trans (onlyAt_marked (by rw [htrim.2, hpsegment]; exact hseg)
    (by rw [hpstart]; exact hgrid) hheads)

/-- What a request for a block brings about, and what a refused one does. -/
def Gives (h : Heap) : EStateM.Result (Stop HeapFailure) Heap Pointer → Prop
  | .ok p h' => OnlyAt p.Heads h h'
  | .error _ h' => OnlyAt Nowhere h h'

theorem Booked.onlyAt_leftBehind (hk : Booked h k) : OnlyAt S h h.leftBehind := by
  have hcur : h.current < h.segments.length := hk.tiled.sound.current_lt
  have hfull : OnlyAt S h (h.withTop h.current (h.lengthAt h.current)) := onlyAt_withTop _ _
  rw [leftBehind]
  split
  · refine hfull.trans (Erases.onlyAt (S := S) (erases_filed ?_
      (hk.tiled.sound.top_mod h.current) (hk.head_lt _) (hk.upper_head _)))
    rw [length_segments_withTop]
    exact hcur
  · exact hfull

theorem Booked.gives_extend (hk : Booked h ⟨L, F, []⟩) (hneed : leastBlock ≤ need) :
    Gives h (Heap.extend need (h.segments.length - h.current) h) := by
  refine extend_induct (P := fun h r => ∀ F, Booked h ⟨L, F, []⟩ → Gives h r)
    hneed ?room ?last ?next hk.tiled.sound rfl F hk
  case room =>
    intro h hsound hfit F hk
    have hcur : h.current < h.segments.length := hsound.current_lt
    have hcount : h.segments.length ≤ 16 := Nat.le_trans hsound.count_le hsound.regions_le
    have hlength : h.lengthAt h.current < 2 ^ 32 := hsound.length_lt hcur
    unfold leastBlock at hneed
    refine (onlyAt_withTop _ _).trans (onlyAt_marked ?_ (hsound.top_mod h.current)
      (heads_pointer (b := ⟨h.current, h.topAt h.current, need⟩) ?_ ?_))
    · rw [length_segments_withTop]
      exact hcur
    · exact Nat.lt_of_lt_of_le hcur hcount
    · show h.topAt h.current + headerSize < 2 ^ 32
      unfold headerSize
      omega
  case last =>
    intro h _ _ _ F _
    exact onlyAt_of_memoryAt fun _ => rfl
  case next =>
    intro h r hsound hfit hnext ih F hk
    obtain ⟨F', hk'⟩ := hk.leave hnext
    have hr := ih F' hk'
    match r with
    | .ok _ _ => exact hk.onlyAt_leftBehind.trans hr
    | .error _ _ => exact hk.onlyAt_leftBehind.trans hr

/-- Reading changes nothing, and taking a block out of its list changes no byte. -/
theorem memoryAt_unfile {c : SizeClass} (hrun : Heap.unfile c h = .ok b h') (i : Nat) :
    h'.memoryAt i = h.memoryAt i := by
  rw [Heap.unfile, Action.get_bind] at hrun
  obtain ⟨bs, h₁, hfirst, hrun⟩ := Action.of_bind_ok hrun
  cases of_load_ok hfirst
  rw [Action.modify_bind] at hrun
  split at hrun
  · rw [Action.modify_bind] at hrun
    obtain ⟨size, h₂, hsecond, hrun⟩ := Action.of_bind_ok hrun
    cases of_load_ok hsecond
    cases hrun
    rfl
  · obtain ⟨size, h₂, hsecond, hrun⟩ := Action.of_bind_ok hrun
    cases of_load_ok hsecond
    cases hrun
    rfl

theorem Booked.gives_takeBlock (hk : Booked h ⟨L, F, []⟩) (request : Nat) :
    Gives h (Heap.takeBlock request h) := by
  rw [Heap.takeBlock]
  cases hsize : sizeFor? request with
  | none => exact onlyAt_of_memoryAt fun _ => rfl
  | some need =>
      obtain ⟨hneed, hlt, hmod, -⟩ := sizeFor?_spec hsize
      simp only [Action.get_bind]
      cases hclass : (SizeClass.ceil need).bind h.firstOccupied with
      | none => exact hk.gives_extend hneed
      | some c =>
          obtain ⟨least, hceil, hfirst⟩ := Option.bind_eq_some_iff.1 hclass
          obtain ⟨hle, hbit, -⟩ := firstOccupied_eq_some.1 hfirst
          obtain ⟨b, rest, h₁, -, hunfile, hfloor, hk₁, -, -⟩ := hk.unfile hbit
          obtain ⟨-, hstop, hleast⟩ := hk₁.bounds (b := b) List.mem_cons_self
          have hsuffices : need ≤ b.size :=
            SizeClass.le_of_ceil_le_floor hneed hlt hleast (by omega) hceil (hfloor ▸ hle)
          obtain ⟨h₂, hocc, -⟩ := hk₁.occupy hneed hmod hsuffices (sizeFor?_spec hsize).2.2.2
          simp only
          rw [Action.bind_ok hunfile, hocc]
          exact (onlyAt_of_memoryAt (memoryAt_unfile hunfile)).trans
            (hk₁.onlyAt_occupy hneed hmod hsuffices hocc)

/-! ## Blocks that are given back or moved -/

theorem erases_lowered (hseg : b.segment < h.segments.length) (hmod : b.start % 8 = 0) :
    Erases b h (h.lowered b) := by
  have hlower : Erases b (h.withTop b.segment b.start) (h.lowered b) :=
    erases_withMemory (by rwa [length_segments_withTop]) fun x hx hreads => by
      rw [memoryAt_withTop]
      exact Memory.readsUsed_untagged hx hmod hreads
  intro i x hx hreads
  obtain ⟨hne, hold⟩ := hlower i x hx hreads
  rw [ReadsUsed, memoryAt_withTop] at hold
  exact ⟨hne, hold⟩

theorem Booked.erases_giveBack (hk : Booked h ⟨l :: L, F, []⟩)
    (hrun : Heap.giveBack l.block.pointer h = .ok () h') : Erases l.block h h' := by
  have hmem : l.block ∈ (Books.mk (l :: L) F []).blocks := hk.mem_of_lease List.mem_cons_self
  have hb := hk.blockOf? List.mem_cons_self
  have hseg := hk.segment_lt hmem
  have hlen := hk.stop_le_length hmem
  have hgrid : l.block.start % 8 = 0 := (hk.fits hmem).start_mod
  obtain ⟨-, -, hleast⟩ := hk.bounds hmem
  unfold leastBlock at hleast
  by_cases hlast : h.AtFrontier l.block
  · rw [giveBack_lowered hb hlen hlast] at hrun
    cases hrun
    exact erases_lowered hseg hgrid
  · rw [giveBack_filed hb hlast, file_ok hseg (by unfold headerSize; omega)] at hrun
    cases hrun
    exact erases_filed hseg hgrid (hk.head_lt _) (hk.upper_head _)

/-- A pointer whose block's header has been erased has none. -/
theorem Booked.unmarked {h'' : Heap} (hk : Booked h k) (hb : b ∈ k.blocks) (he : Erases b h' h'')
    (i x : Nat) (hplace : b.pointer.Heads i x) (hx : x % 8 = 0) : ¬ h''.ReadsUsed i x := by
  intro hreads
  obtain ⟨hregion, hoffset⟩ := hplace
  rw [hk.toNat_region hb] at hregion
  rw [hk.toNat_offset hb] at hoffset
  exact (he i x hx hreads).1 ⟨hregion.symm, by omega⟩

theorem Booked.onlyAt_refilled (hk : Booked h k) (hb : b ∈ k.blocks) {m : Memory}
    (hout : ∀ x, x < b.start + headerSize ∨ b.start + b.size ≤ x →
      m.byteAt x = (h.memoryAt b.segment).byteAt x) :
    OnlyAt b.Contains h (h.withMemory b.segment m) := by
  have hfits := hk.fits hb
  have hgrid : b.start % 8 = 0 := hfits.start_mod
  have hsize : b.size % 8 = 0 := hfits.size_mod
  refine onlyAt_withMemory (hk.segment_lt hb) fun x hx hreads => ?_
  refine (Memory.readsUsed_refilled hx ?_ ?_ hout hreads).imp_left fun hin => ⟨rfl, hin⟩
  · unfold headerSize
    omega
  · omega

/-- What a change of size brings about, and what a refused one does. -/
def Carries (p : Pointer) (h : Heap) : EStateM.Result (Stop HeapFailure) Heap Pointer → Prop
  | .ok q h' => ∃ b, h'.blockOf? q = some b ∧
      OnlyAt (fun i x => q.Heads i x ∨ b.Contains i x) h h' ∧
      (q = p ∨ ∀ i x, p.Heads i x → x % 8 = 0 → ¬ h'.ReadsUsed i x)
  | .error _ h' => OnlyAt Nowhere h h'

theorem Booked.onlyAt_grown (hk : Booked h k) (hb : b ∈ k.blocks) (need : Nat) :
    OnlyAt b.pointer.Heads h (h.grown b need) := by
  have hgrid : b.start % 8 = 0 := (hk.fits hb).start_mod
  refine (onlyAt_withTop _ _).trans
    (onlyAt_withMemory (by rw [length_segments_withTop]; exact hk.segment_lt hb) fun x hx hreads => ?_)
  rw [memoryAt_withTop]
  refine (Memory.readsUsed_resized hx hgrid hreads).imp_left fun heq => ?_
  rw [heq]
  exact ⟨hk.toNat_region hb, hk.toNat_offset hb⟩

theorem Booked.carries_moveBlock (hk : Booked h ⟨l :: L, F, []⟩) (old new : Nat) :
    Carries l.block.pointer h (Heap.moveBlock l.block.pointer old new h) := by
  have hmem : l.block ∈ (Books.mk (l :: L) F []).blocks := hk.mem_of_lease List.mem_cons_self
  have hb := hk.blockOf? List.mem_cons_self
  obtain ⟨-, -, hleast⟩ := hk.bounds hmem
  unfold leastBlock at hleast
  cases hsize : sizeFor? new with
  | none =>
      rw [moveBlock_unsized hb hsize]
      exact onlyAt_of_memoryAt fun _ => rfl
  | some need =>
      obtain ⟨-, hlt, hmod, hnew⟩ := sizeFor?_spec hsize
      by_cases hsuffices : need ≤ l.block.size
      · rw [moveBlock_enough hb hsize hsuffices]
        exact ⟨l.block, hb, onlyAt_of_memoryAt fun _ => rfl, Or.inl rfl⟩
      by_cases hgrow : h.AtFrontier l.block ∧
          l.block.start + need ≤ h.lengthAt l.block.segment
      · obtain ⟨hk', -⟩ := hk.growInPlace (by omega) hlt hmod hnew hgrow.1 hgrow.2
        have hblock := hk'.blockOf? (l := l.resized new ⟨l.block.segment, l.block.start, need⟩)
          List.mem_cons_self
        rw [moveBlock_grown hb hsize hsuffices hgrow]
        exact ⟨_, hblock, (hk.onlyAt_grown hmem need).mono fun _ _ => Or.inl, Or.inl rfl⟩
      · rw [moveBlock_copied hb hsize hsuffices hgrow]
        have hgives := hk.gives_takeBlock new
        have htake := hk.takeBlock new
        cases hrun : Heap.takeBlock new h with
        | error e h' =>
            rw [Action.bind_error hrun]
            rw [hrun] at hgives
            exact hgives
        | ok q h₁ =>
            rw [hrun] at hgives htake
            obtain ⟨b, F₁, rfl, hk₁, -⟩ := htake
            have hroom := (hk₁.held _ List.mem_cons_self).room
            obtain ⟨m, hcopy, hout, hk₂⟩ := hk₁.copyContent
              (min (min old new) (l.block.size - headerSize)) (by unfold headerSize; omega)
              (by simp only at hroom ⊢; omega)
            have hcopied := hk₁.onlyAt_refilled (hk₁.mem_of_lease List.mem_cons_self) hout
            have hswapped := hk₂.perm (List.Perm.swap _ _ _)
            obtain ⟨F₂, h₃, hgive, hk₃, -, -⟩ := hswapped.giveBack
            have herased := hswapped.erases_giveBack hgive
            rw [Action.bind_ok hrun, Action.bind_ok hcopy, Action.bind_ok hgive]
            refine ⟨b, hk₃.blockOf? List.mem_cons_self, ?_, Or.inr (hk.unmarked hmem herased)⟩
            exact (hgives.mono fun _ _ => Or.inl).trans
              ((hcopied.mono fun _ _ => Or.inr).trans herased.onlyAt)

end Operations

end Heap

end BlockHost
