import BlockHost.Proofs.Custody

/-!
# When an allocation can fail

An allocation is refused for lack of memory for one of two reasons (`Lacks`). The size is one for which
there can be no block, or there is none: no list of free blocks has one, from the class on from which the
request looks, and no segment has room above its top, from the current one on. Free blocks are meant here as
the heap finds them, by following links from the head of a list (`FreeListed`).

This holds in every state that a client can reach, through whatever pointers it calls (`Sane.exhausts_iff`).
If the client calls through live pointers only, then nothing else can become of an allocation, and two
things are enough for it to be answered (`Generous`). One is a free block with a quarter more than is
needed, because each class begins at most a quarter above the one before (`SizeClass.four_leastSize_succ_le`),
so that the block lies where the request looks. The other is a region that has just been added.
-/

namespace BlockHost

namespace SizeClass

/-- A block with a quarter more than is needed is filed where the request looks. -/
theorem finds_of_quarter {need size : Nat} (hneed : leastBlock ≤ need)
    (hquarter : 5 * need ≤ 4 * size) (hsize : size < 2 ^ 32) : Finds need size := by
  have hrequest : need ∈ sizes := ⟨hneed, by omega⟩
  have hblock : size ∈ sizes := ⟨by omega, hsize⟩
  obtain ⟨least, hceil, -⟩ := ceil_cases hrequest
  have hlower := four_lower_le_of_ceil hrequest hceil
  exact ⟨least, hceil, (lower_le_iff hblock).1 (by omega)⟩

end SizeClass

namespace Heap

/-! ## Blocks for requests -/

/-- The size of the block for a request, with its header and on the grid. -/
def blockFor (size : Nat) : Nat :=
  max leastBlock (padded (size + headerSize))

section BlockFor

variable {size need : Nat}

theorem leastBlock_le_blockFor (size : Nat) : leastBlock ≤ blockFor size :=
  Nat.le_max_left _ _

theorem lt_blockFor (size : Nat) : size < blockFor size := by
  have hle := le_padded (size + headerSize)
  unfold headerSize at hle
  unfold blockFor headerSize
  omega

theorem sizeFor?_eq_some :
    sizeFor? size = some need ↔
      size + 15 < 2 ^ 64 ∧ blockFor size < 2 ^ 32 ∧ need = blockFor size := by
  rw [sizeFor?]
  split
  · next hword =>
      simp only [hword, true_and]
      show (if blockFor size < 2 ^ 32 then some (blockFor size) else none) = some need ↔ _
      split
      · next hlt =>
          simp only [hlt, true_and, Option.some.injEq]
          exact eq_comm
      · next hge => simp only [hge, false_and, reduceCtorEq]
  · next hword => simp only [hword, false_and, reduceCtorEq]

theorem sizeFor?_of_lt (hlt : blockFor size < 2 ^ 32) : sizeFor? size = some (blockFor size) := by
  have hsize := lt_blockFor size
  exact sizeFor?_eq_some.2 ⟨by omega, hlt, rfl⟩

end BlockFor

/-! ## The lists of free blocks -/

/-- The block that a link leads to, by its header. -/
def blockAt (h : Heap) (link : Nat) : Block where
  segment := linkSegment link
  start := linkStart link
  size := (h.memoryAt (linkSegment link)).number (linkStart link) 4

/-- The link behind the header that a link leads to. -/
def linkAfter (h : Heap) (link : Nat) : Nat :=
  (h.memoryAt (linkSegment link)).number (linkStart link + headerSize) 8

/-- A block is met by following links from a first one. -/
inductive Listed (h : Heap) : Nat → Block → Prop
  | here {link : Nat} (hlink : link ≠ noLink) : Listed h link (h.blockAt link)
  | behind {link : Nat} {b : Block} (hlink : link ≠ noLink) (hb : Listed h (h.linkAfter link) b) :
      Listed h link b

/-- A block is in the list of free blocks of a class. -/
def FreeListed (h : Heap) (c : SizeClass) (b : Block) : Prop :=
  Listed h (h.heads.get c) b

section Lists

variable {h : Heap} {k : Books} {c : SizeClass} {b : Block}

/-- A list has a block exactly when its class has a bit in the bitmap. -/
theorem Sane.exists_freeListed (hs : Sane h) :
    (∃ b, h.FreeListed c b) ↔ h.occupied.getLsbD c = true := by
  rw [hs.occupied c]
  refine ⟨fun ⟨b, hb⟩ => ?_, fun hlink => ⟨_, .here hlink⟩⟩
  cases hb with
  | here hlink => exact hlink
  | behind hlink => exact hlink

theorem blockAt_link (hk : Booked h k) (hb : b ∈ k.free) : h.blockAt (link b.segment b.start) = b := by
  obtain ⟨-, hstop, hleast⟩ := hk.bounds (hk.mem_of_free hb)
  unfold leastBlock at hleast
  have hsize := (hk.marked b hb).size_eq
  rw [blockAt, linkSegment_link (by omega), linkStart_link (by omega), hsize]

theorem linkAfter_link (hk : Booked h k) (hb : b ∈ k.free) :
    h.linkAfter (link b.segment b.start)
      = (h.memoryAt b.segment).number (b.start + headerSize) 8 := by
  obtain ⟨-, hstop, hleast⟩ := hk.bounds (hk.mem_of_free hb)
  unfold leastBlock at hleast
  rw [linkAfter, linkSegment_link (by omega), linkStart_link (by omega)]

/-- Following links leads through the blocks that the books have on the way, and no others. -/
theorem Booked.mem_of_listed {first : Nat} (hk : Booked h k) (hb : Listed h first b) :
    ∀ {bs : List Block}, (∀ b ∈ bs, b ∈ k.free) → Linked h.memoryAt first bs → b ∈ bs := by
  induction hb with
  | here hlink =>
      intro bs hfree hlinked
      cases bs with
      | nil => exact absurd hlinked hlink
      | cons a rest =>
          rw [hlinked.1, blockAt_link hk (hfree a List.mem_cons_self)]
          exact List.mem_cons_self
  | behind hlink _ ih =>
      intro bs hfree hlinked
      cases bs with
      | nil => exact absurd hlinked hlink
      | cons a rest =>
          refine List.mem_cons_of_mem _ (ih (fun b hb => hfree b (List.mem_cons_of_mem _ hb)) ?_)
          rw [hlinked.1, linkAfter_link hk (hfree a List.mem_cons_self)]
          exact hlinked.2

/-- A free-listed block is a free block of the class. -/
theorem Booked.mem_filed_of_freeListed (hk : Booked h k) (hb : h.FreeListed c b) :
    b ∈ k.filed c :=
  hk.mem_of_listed hb (fun _ ha => (List.mem_filter.1 ha).1) (hk.linked c)

end Lists

/-! ## Why a request is refused -/

/-- There can be no block for a request, or there is none. -/
def Lacks (h : Heap) (size : Nat) : Prop :=
  2 ^ 64 ≤ size + 15 ∨ 2 ^ 32 ≤ blockFor size ∨
    (∀ least c b, SizeClass.ceil (blockFor size) = some least → least ≤ c → ¬ h.FreeListed c b) ∧
      ¬ h.HasRoom (blockFor size)

/-- What is enough for an allocation to be answered. -/
structure Generous (h : Heap) : Prop where
  /-- Nothing but a lack of memory keeps an allocation from being answered. -/
  answers : ∀ size, ¬ h.Lacks size → Answers (allocate size) h
  listed : ∀ size c b, h.FreeListed c b → 5 * blockFor size ≤ 4 * b.size →
    Answers (allocate size) h
  committed : ∀ region h', h.commit region = .ok h' →
    ∀ size, blockFor size ≤ h.baseSize * 2 ^ region.index.toNat → Answers (allocate size) h'

section Refusals

variable {h h' : Heap} {L : List Lease} {F : List Block} {size need : Nat}

theorem Sane.barren_iff (hs : Sane h) :
    h.Barren need ↔ (∀ least c b, SizeClass.ceil need = some least → least ≤ c →
      ¬ h.FreeListed c b) ∧ ¬ h.HasRoom need := by
  refine and_congr_left fun _ => ?_
  rw [Option.bind_eq_none_iff]
  constructor
  · intro hnone least c b hceil hle hb
    have hempty := firstOccupied_eq_none.1 (hnone least hceil) c hle
    rw [hs.exists_freeListed.1 ⟨b, hb⟩] at hempty
    cases hempty
  · intro hempty least hceil
    refine firstOccupied_eq_none.2 fun c hle => Bool.eq_false_iff.2 fun hbit => ?_
    obtain ⟨b, hb⟩ := hs.exists_freeListed.2 hbit
    exact hempty least c b hceil hle hb

theorem Sane.exhausts_iff_lacks (hs : Sane h) :
    Exhausts (allocate size) h ↔ h.Lacks size := by
  rw [hs.exhausts_iff]
  constructor
  · intro hno
    by_cases hword : size + 15 < 2 ^ 64
    · by_cases hlt : blockFor size < 2 ^ 32
      · exact Or.inr (Or.inr (hs.barren_iff.1 (hno _ (sizeFor?_of_lt hlt))))
      · exact Or.inr (Or.inl (Nat.le_of_not_lt hlt))
    · exact Or.inl (Nat.le_of_not_lt hword)
  · intro hlacks need hsize
    obtain ⟨hword, hlt, rfl⟩ := sizeFor?_eq_some.1 hsize
    rcases hlacks with hge | hge | hbarren
    · exact absurd hword (Nat.not_lt.2 hge)
    · exact absurd hlt (Nat.not_lt.2 hge)
    · exact hs.barren_iff.2 hbarren

/-- With books nothing else can become of an allocation than an answer or a lack of memory. -/
theorem Booked.answers_of_not_exhausts (hk : Booked h ⟨L, F, []⟩)
    (hno : ¬ Exhausts (allocate size) h) : Answers (allocate size) h := by
  have hserved := hk.takeBlock size
  rw [answers_allocate]
  cases hrun : Heap.takeBlock size h with
  | ok p h₁ => exact ⟨p, h₁, hrun⟩
  | error stop h₁ =>
      rw [hrun] at hserved
      match stop with
      | .refused .outOfMemory =>
          refine absurd ⟨Heap.askForGrowth h₁, ?_⟩ hno
          rw [allocate, settled, hrun]

theorem Booked.answers_of_quarter (hk : Booked h ⟨L, F, []⟩) {c : SizeClass} {b : Block}
    (hb : h.FreeListed c b) (hquarter : 5 * blockFor size ≤ 4 * b.size) :
    Answers (allocate size) h := by
  obtain ⟨hfree, -⟩ := Books.mem_filed.1 (hk.mem_filed_of_freeListed hb)
  obtain ⟨-, hstop, -⟩ := hk.bounds (hk.mem_of_free hfree)
  have hsmall : blockFor size < 2 ^ 32 := by omega
  have hsize := sizeFor?_of_lt hsmall
  have hfinds := SizeClass.finds_of_quarter (leastBlock_le_blockFor size) hquarter (by omega)
  exact (hk.answers_iff hsize).2 (Or.inl ⟨b, hfree, hfinds⟩)

/-- A region that has been added is empty, and as long as its index says. -/
theorem Booked.answers_of_commit {region : Region} (hk : Booked h ⟨L, F, []⟩)
    (hrun : h.commit region = .ok h')
    (hle : blockFor size ≤ h.baseSize * 2 ^ h.segments.length) : Answers (allocate size) h' := by
  have hk' := hk.commit hrun
  obtain ⟨rfl, hroom, hlength⟩ := commit_eq hk.tiled.sound hrun
  have hground := ground_append hlength
  have hnew : h.segments.length < h.segments.length + 1 := Nat.lt_succ_self _
  have hend : h.ground.grow.length h.segments.length = h.baseSize * 2 ^ h.segments.length :=
    if_pos rfl
  have htop : h.ground.grow.top h.segments.length = 0 :=
    hk.tiled.sound.top_eq_zero _ (Or.inr (Nat.le_refl _))
  have hlt : h.baseSize * 2 ^ h.segments.length < 2 ^ 32 := by
    have hsmall := (hk.tiled.sound.grow hroom).length_lt hnew
    rwa [hend] at hsmall
  refine (hk'.answers_iff (sizeFor?_of_lt (by omega))).2
    (Or.inr ⟨h.segments.length, Nat.le_of_lt hk.tiled.sound.current_lt, ?_, ?_⟩)
  · rw [List.length_append]
    exact hnew
  · show Ground.top (ground _) _ + _ ≤ Ground.length (ground _) _
    rw [hground, htop, hend, Nat.zero_add]
    exact hle

theorem index_of_commit {region : Region} (hrun : h.commit region = .ok h') :
    region.index.toNat = h.segments.length := by
  simp only [commit] at hrun
  split at hrun
  · cases hrun
  split at hrun
  · cases hrun
  next hindex => exact Decidable.not_not.1 hindex

theorem Booked.generous (hk : Booked h ⟨L, F, []⟩) : h.Generous where
  answers size hno := hk.answers_of_not_exhausts fun hexhausts =>
    hno (hk.sane.exhausts_iff_lacks.1 hexhausts)
  listed size c b hb hquarter := hk.answers_of_quarter hb hquarter
  committed region h' hrun size hle := by
    rw [index_of_commit hrun] at hle
    exact hk.answers_of_commit hrun hle

end Refusals

/-! ## Every state that is reached -/

/-- Whatever the settings allow and whatever a client and the worker call. The second part is about clients
that pass live pointers only, with whatever sizes. -/
theorem runs_exhaust {s : Settings} (hs : s.validate = .ok ()) {calls : List Call} {c : Custody}
    (hreached : Custody.reached s calls = some c) :
    (∀ size, Exhausts (allocate size) c.heap ↔ c.heap.Lacks size) ∧
      (Custody.CarefulFrom s calls → c.heap.Generous) := by
  refine ⟨fun size => (Custody.sane_of_reached hs hreached).exhausts_iff_lacks, fun hcareful => ?_⟩
  obtain ⟨L, F, hbooked, -⟩ := Custody.kept_of_reached hs hcareful hreached
  exact hbooked.generous

/-- A region of 256 bytes has been used up, and 112 of them have been given back. There is a block for 64
bytes, and none for 105. -/
theorem runs_exhaust_narrow :
    (oneRegion 256).validate = .ok () ∧
      ∃ c, Custody.reached (oneRegion 256) [.allocate 104, .allocate 136, .free 0 104] = some c ∧
        Custody.CarefulFrom (oneRegion 256) [.allocate 104, .allocate 136, .free 0 104] ∧
        Answers (allocate 64) c.heap ∧ Exhausts (allocate 105) c.heap ∧
        (∀ size, Exhausts (allocate size) c.heap ↔ c.heap.Lacks size) ∧ c.heap.Generous := by
  have hrun : (Custody.reached (oneRegion 256) [.allocate 104, .allocate 136, .free 0 104]).any
      (fun c => decide (Answers (allocate 64) c.heap ∧ Exhausts (allocate 105) c.heap)) = true := by
    decide +kernel
  have hcareful : Custody.CarefulFrom (oneRegion 256)
      [.allocate 104, .allocate 136, .free 0 104] := by
    decide +kernel
  obtain ⟨c, hreached, hp⟩ := (Option.any_eq_true _ _).1 hrun
  obtain ⟨hanswers, hexhausts⟩ := of_decide_eq_true hp
  obtain ⟨hiff, hgenerous⟩ := runs_exhaust rfl hreached
  exact ⟨rfl, c, hreached, hcareful, hanswers, hexhausts, hiff, hgenerous hcareful⟩

end Heap

end BlockHost
