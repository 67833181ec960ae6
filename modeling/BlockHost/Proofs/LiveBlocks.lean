import BlockHost.Proofs.HeapAccounts
import Mathlib.Data.List.Nodup
import Mathlib.Data.List.Pairwise

/-!
# The blocks that are live

Which allocations a heap has is written in its headers alone: blocks lie one behind the other, so
whoever begins at the start of a segment and goes from header to header meets every block once, and
the tags say which of them are handed out (`live`). A pointer that happens to lead to bytes that look
like a header counts for nothing here.

For a heap whose books are right the walk meets the blocks of the books, those and no others, because
it only ever stands where one block ends and the next begins (`Clear`). What it leaves out at the end
of a segment is a gap too small for a block. So the live blocks are those on lease, whoever holds
them (`Booked.live_perm`).
-/

namespace BlockHost.Heap

/-- The blocks of a segment from a place on, so many at most. -/
def blocksFrom (memory : Memory) (segment top : Nat) : (most start : Nat) → List Block
  | 0, _ => []
  | most + 1, start =>
      if start + leastBlock ≤ top then
        let size := memory.number start 4
        ⟨segment, start, size⟩ :: blocksFrom memory segment top most (start + size)
      else []

/-- The blocks of a segment, as they lie behind each other below its top. -/
def blocksIn (h : Heap) (i : Nat) : List Block :=
  blocksFrom (h.memoryAt i) i (h.topAt i) (h.topAt i / leastBlock) 0

/-- Whether the header of a block says that the block has been handed out. -/
def isUsed (h : Heap) (b : Block) : Bool :=
  (h.memoryAt b.segment).number (b.start + 4) 4 = usedTag

/-- The blocks that have been handed out and not been given back, as they lie. -/
def live (h : Heap) : List Block :=
  ((List.range h.segments.length).flatMap h.blocksIn).filter h.isUsed

/-- The pointers to the blocks that have been handed out. -/
def allocations (h : Heap) : List Pointer :=
  h.live.map Block.pointer

/-- One block begins before another one: in a segment before, or further down in the same one. -/
def Block.Before (a b : Block) : Prop :=
  a.segment < b.segment ∨ a.segment = b.segment ∧ a.start < b.start

theorem Block.Before.asymm {a b : Block} (hab : a.Before b) : ¬ b.Before a := by
  unfold Before at *
  omega

/-- No block of a segment begins before a place and ends behind it. -/
def Clear (bs : List Block) (segment start : Nat) : Prop :=
  ∀ b ∈ bs, b.segment = segment → b.start + b.size ≤ start ∨ start ≤ b.start

/-! ## The walk -/

section Walk

variable {g : Ground} {bs : List Block} {b : Block} {memory : Memory} {i stop most start : Nat}

theorem Tiled.apart_of_ne (ht : Tiled g bs) {c : Block} (hb : b ∈ bs) (hc : c ∈ bs) (hne : b ≠ c) :
    b.Apart c := by
  have : Std.Symm Block.Apart := ⟨fun _ _ hab => hab.symm⟩
  exact ht.apart.forall hb hc hne

/-- No two blocks hold the same address. -/
theorem Tiled.eq_of_holds {c : Block} {x : Nat} (ht : Tiled g bs) (hb : b ∈ bs)
    (hc : c ∈ bs) (hbx : b.Holds i x) (hcx : c.Holds i x) : b = c := by
  obtain ⟨rfl, hlow, hhigh⟩ := hbx
  obtain ⟨hseg, hlow', hhigh'⟩ := hcx
  by_contra hne
  rcases ht.apart_of_ne hb hc hne with hother | hbefore | hbehind
  · exact hother hseg.symm
  · omega
  · omega

theorem Tiled.nodup (ht : Tiled g bs) : bs.Nodup := by
  refine ht.apart.imp_of_mem fun {a b} ha _ hap heq => ?_
  have hsize := (ht.fits a ha).size_ge
  unfold leastBlock at hsize
  subst heq
  rcases hap with hne | hle | hle
  · exact hne rfl
  · omega
  · omega

theorem Tiled.clear_stop (ht : Tiled g bs) (hb : b ∈ bs) :
    Clear bs b.segment (b.start + b.size) := by
  intro c hc hseg
  by_cases hbc : b = c
  · exact .inl (by rw [hbc])
  · have hsize := (ht.fits c hc).size_ge
    have hsize' := (ht.fits b hb).size_ge
    rcases ht.apart_of_ne hb hc hbc with hne | hle | hle
    · exact absurd hseg.symm hne
    · exact .inr hle
    · exact .inl (by omega)

/-- Between two blocks, a place that is covered is where one of them begins. -/
theorem Clear.exists_start (hclear : Clear bs i start) (hcov : Covered bs i stop)
    (hlt : start < stop) : ∃ b ∈ bs, b.segment = i ∧ b.start = start := by
  obtain ⟨b, hb, hseg, hlow, hhigh⟩ := hcov.whole start hlt
  refine ⟨b, hb, hseg, ?_⟩
  rcases hclear b hb hseg with hbefore | hbehind
  · omega
  · omega

/-- A place between two blocks of a segment, behind which there can only be so many more. -/
structure Stands (bs : List Block) (i stop most start : Nat) : Prop where
  clear : Clear bs i start
  le : start ≤ stop
  most_gt : stop < start + (most + 1) * leastBlock

/-- The walk begins at the start of a segment, and is allowed enough blocks. -/
theorem Tiled.exists_stands (ht : Tiled g bs) (i : Nat) :
    ∃ stop, Covered bs i stop ∧ stop ≤ g.top i ∧ g.top i < stop + leastBlock ∧
      (stop = g.top i ∨ i < g.current) ∧ Stands bs i stop (g.top i / leastBlock) 0 := by
  obtain ⟨stop, hcov, hle, hgap⟩ := ht.covered i
  have hnear : g.top i < stop + leastBlock := by
    unfold leastBlock at hgap ⊢
    omega
  have hdiv := Nat.lt_div_mul_add (a := g.top i) (b := leastBlock) (by decide)
  refine ⟨stop, hcov, hle, hnear, hgap.imp_right And.left, fun _ _ _ => .inr (Nat.zero_le _),
    Nat.zero_le _, ?_⟩
  rw [Nat.add_mul, Nat.one_mul]
  omega

/-- The walk ends at the end of the last block, and before that goes from a block to the end of it. -/
theorem Stands.step (hstands : Stands bs i stop most start) (ht : Tiled g bs)
    (hcov : Covered bs i stop) (hle : stop ≤ g.top i) (hgap : g.top i < stop + leastBlock)
    (hmemory : ∀ b ∈ bs, b.segment = i → memory.number b.start 4 = b.size) :
    (start = stop ∧ blocksFrom memory i (g.top i) most start = []) ∨
      ∃ b ∈ bs, ∃ fewer, b.segment = i ∧ b.start = start ∧ most = fewer + 1 ∧
        blocksFrom memory i (g.top i) most start
          = b :: blocksFrom memory i (g.top i) fewer (b.start + b.size) ∧
        Stands bs i stop fewer (b.start + b.size) := by
  have hmost := hstands.most_gt
  rw [Nat.add_mul, Nat.one_mul] at hmost
  rcases Nat.eq_or_lt_of_le hstands.le with heq | hlt
  · refine .inl ⟨heq, ?_⟩
    cases most with
    | zero => rfl
    | succ fewer => rw [blocksFrom, if_neg (by omega)]
  · obtain ⟨b, hb, hseg, rfl⟩ := hstands.clear.exists_start hcov hlt
    have hsize := (ht.fits b hb).size_ge
    have hin := hcov.within b hb hseg
    cases most with
    | zero => omega
    | succ fewer =>
        refine .inr ⟨b, hb, fewer, hseg, rfl, rfl, ?_, ?_, hin, ?_⟩
        · rw [blocksFrom, if_pos (by omega), hmemory b hb hseg, ← hseg]
        · rw [← hseg]
          exact ht.clear_stop hb
        · rw [Nat.add_mul, Nat.one_mul] at hmost ⊢
          omega

theorem Stands.walk (hstands : Stands bs i stop most start) (ht : Tiled g bs)
    (hcov : Covered bs i stop) (hle : stop ≤ g.top i) (hgap : g.top i < stop + leastBlock)
    (hmemory : ∀ b ∈ bs, b.segment = i → memory.number b.start 4 = b.size) :
    (∀ b, b ∈ blocksFrom memory i (g.top i) most start ↔
      b ∈ bs ∧ b.segment = i ∧ start ≤ b.start) ∧
    (blocksFrom memory i (g.top i) most start).Pairwise Block.Before := by
  have hbelow : ∀ b ∈ bs, b.segment = i → b.start < stop := by
    intro b hb hseg
    have hsize := (ht.fits b hb).size_ge
    have hin := hcov.within b hb hseg
    unfold leastBlock at hsize
    omega
  have hend : ∀ {start : Nat} {walk : List Block}, start = stop → walk = [] →
      (∀ b, b ∈ walk ↔ b ∈ bs ∧ b.segment = i ∧ start ≤ b.start) ∧ walk.Pairwise Block.Before := by
    rintro start walk rfl rfl
    refine ⟨fun b => iff_of_false List.not_mem_nil ?_, .nil⟩
    rintro ⟨hb, hseg, hlow⟩
    exact absurd (hbelow b hb hseg) (Nat.not_lt.2 hlow)
  -- On how many blocks there can still be. The walk may end before they run out, so both cases ask
  -- `step` where it stands.
  induction most generalizing start with
  | zero =>
      rcases hstands.step ht hcov hle hgap hmemory with ⟨heq, hnil⟩ | ⟨_, _, _, _, _, hzero, -⟩
      · exact hend heq hnil
      · cases hzero
  | succ most ih =>
      rcases hstands.step ht hcov hle hgap hmemory with
        ⟨heq, hnil⟩ | ⟨c, hc, _, hseg, rfl, hsucc, hcons, hnext⟩
      · exact hend heq hnil
      cases hsucc
      obtain ⟨hmem, hsorted⟩ := ih hnext
      have hsize := (ht.fits c hc).size_ge
      unfold leastBlock at hsize
      rw [hcons]
      refine ⟨fun b => ?_, List.pairwise_cons.2 ⟨fun b hb => ?_, hsorted⟩⟩
      · rw [List.mem_cons, hmem]
        constructor
        · rintro (rfl | ⟨hb, hbseg, hlow⟩)
          · exact ⟨hc, hseg, Nat.le_refl _⟩
          · exact ⟨hb, hbseg, by omega⟩
        · rintro ⟨hb, hbseg, hlow⟩
          by_cases hbc : b = c
          · exact .inl hbc
          -- Another block does not begin inside of `c`, so it begins behind it.
          have hbsize := (ht.fits b hb).size_ge
          unfold leastBlock at hbsize
          rcases ht.apart_of_ne hb hc hbc with hne | hbefore | hbehind
          · exact absurd (hbseg.trans hseg.symm) hne
          · omega
          · exact .inr ⟨hb, hbseg, hbehind⟩
      · obtain ⟨-, hbseg, hlow⟩ := (hmem b).1 hb
        exact .inr ⟨hseg.trans hbseg.symm, by omega⟩

end Walk

/-! ## What the walk meets -/

section Live

variable {h h' : Heap} {L L' : List Lease} {F F' : List Block} {b : Block}

theorem Booked.walk (hk : Booked h ⟨L, F, []⟩) (i : Nat) :
    (∀ b, b ∈ h.blocksIn i ↔ b ∈ F ++ L.map Lease.block ∧ b.segment = i) ∧
      (h.blocksIn i).Pairwise Block.Before := by
  have ht : Tiled h.ground (F ++ L.map Lease.block) := hk.tiled
  have hnumber : ∀ b ∈ F ++ L.map Lease.block, b.segment = i →
      (h.memoryAt i).number b.start 4 = b.size := by
    rintro b hb rfl
    rcases List.mem_append.mp hb with hb | hb
    · exact (hk.marked b hb).size_eq
    · obtain ⟨l, hl, rfl⟩ := List.mem_map.mp hb
      exact (hk.held l hl).marked.size_eq
  obtain ⟨stop, hcov, hle, hnear, -, hstands⟩ := ht.exists_stands i
  obtain ⟨hmem, hsorted⟩ := hstands.walk ht hcov hle hnear hnumber
  refine ⟨fun b => (hmem b).trans ?_, hsorted⟩
  simp only [Nat.zero_le, and_true]

theorem Booked.mem_blocks (hk : Booked h ⟨L, F, []⟩) :
    b ∈ (List.range h.segments.length).flatMap h.blocksIn ↔ b ∈ F ++ L.map Lease.block := by
  rw [List.mem_flatMap]
  constructor
  · rintro ⟨i, -, hb⟩
    exact (((hk.walk i).1 b).1 hb).1
  · intro hb
    have hseg := (hk.tiled.fits b hb).segment_lt hk.tiled.sound
    exact ⟨b.segment, List.mem_range.2 hseg, ((hk.walk _).1 b).2 ⟨hb, rfl⟩⟩

theorem Booked.mem_live (hk : Booked h ⟨L, F, []⟩) : b ∈ h.live ↔ b ∈ L.map Lease.block := by
  rw [live, List.mem_filter, hk.mem_blocks, List.mem_append]
  constructor
  · rintro ⟨hb | hb, hused⟩
    · have hfree : (h.memoryAt b.segment).number (b.start + 4) 4 = freeTag := (hk.marked b hb).tag_eq
      rw [isUsed, hfree] at hused
      exact absurd hused (by decide)
    · exact hb
  · intro hb
    refine ⟨.inr hb, ?_⟩
    obtain ⟨l, hl, rfl⟩ := List.mem_map.mp hb
    rw [isUsed, (hk.held l hl).marked.tag_eq]
    exact decide_eq_true rfl

theorem Booked.live_sorted (hk : Booked h ⟨L, F, []⟩) : h.live.Pairwise Block.Before := by
  refine List.Pairwise.filter _ (List.pairwise_flatMap.2 ⟨fun i _ => (hk.walk i).2, ?_⟩)
  refine List.pairwise_lt_range.imp fun {i j} hij b hb c hc => ?_
  obtain ⟨-, rfl⟩ := ((hk.walk i).1 b).1 hb
  obtain ⟨-, rfl⟩ := ((hk.walk j).1 c).1 hc
  exact .inl hij

theorem Booked.nodup_leased (hk : Booked h ⟨L, F, []⟩) : (L.map Lease.block).Nodup := by
  have hblocks : (F ++ L.map Lease.block).Nodup := hk.tiled.nodup
  exact (List.nodup_append.1 hblocks).2.1

theorem Booked.live_perm (hk : Booked h ⟨L, F, []⟩) : h.live.Perm (L.map Lease.block) := by
  have hlive : h.live.Nodup :=
    hk.live_sorted.imp fun {b c} hbefore heq => by
      subst heq
      exact hbefore.asymm hbefore
  exact (List.perm_ext_iff_of_nodup hlive hk.nodup_leased).2 fun b => hk.mem_live

theorem Booked.allocations_perm (hk : Booked h ⟨L, F, []⟩) :
    h.allocations.Perm (L.map fun l => l.block.pointer) := by
  have hperm := hk.live_perm.map Block.pointer
  rw [List.map_map] at hperm
  exact hperm

theorem Booked.nodup_allocations (hk : Booked h ⟨L, F, []⟩) : h.allocations.Nodup := by
  -- A pointer leads back to its block, and the blocks are different.
  have hblocks : (L.map fun l => l.block.pointer).map h.blockOf? = (L.map Lease.block).map some := by
    rw [List.map_map, List.map_map]
    exact List.map_congr_left fun l hl => hk.blockOf? hl
  have hnodup : ((L.map fun l => l.block.pointer).map h.blockOf?).Nodup := by
    rw [hblocks]
    exact hk.nodup_leased.map fun _ _ heq => Option.some.inj heq
  exact hk.allocations_perm.nodup_iff.2 (hnodup.of_map _)

theorem Booked.live_eq (hk : Booked h ⟨L, F, []⟩) (hk' : Booked h' ⟨L', F', []⟩)
    (hp : (L.map Lease.block).Perm (L'.map Lease.block)) : h'.live = h.live :=
  (hk'.live_perm.trans (hp.symm.trans hk.live_perm.symm)).eq_of_pairwise
    (fun _ _ _ _ hbc hcb => absurd hcb hbc.asymm) hk'.live_sorted hk.live_sorted

end Live

end BlockHost.Heap
