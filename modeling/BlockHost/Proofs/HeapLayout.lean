import BlockHost.Proofs.Custody
import BlockHost.Proofs.LiveBlocks

/-!
# How a heap lies in its regions

A heap can be read off its bytes. From the start of a region to its top one block lies behind the other,
each with its size and one of two tags in its header (`InRow`). Those with the one tag are the live
allocations. Those with the other are the free blocks, and the links through them lead once through all
those of a class, beginning at its head (`Laid`). Nothing of a region is lost: an address belongs to one
block, or to the part from which new blocks will come, or to the last bytes of a region that has been left
behind with less than a block to give.

This is what the books of a heap come to for someone who does not have them (`Booked.laid`). So it holds
wherever calls through live pointers lead, of whatever sizes, and however regions are added meanwhile
(`laid_of_reachable`).
-/

namespace BlockHost.Heap

/-- The size of a block stands in its header, and so does whether it is handed out or free. -/
structure Headed (h : Heap) (b : Block) : Prop where
  size_ge : leastBlock ≤ b.size
  marked : b.Marked h.memoryAt usedTag ∨ b.Marked h.memoryAt freeTag

theorem Headed.size_eq {h : Heap} {b : Block} (hb : h.Headed b) :
    (h.memoryAt b.segment).number b.start 4 = b.size := by
  rcases hb.marked with hmarked | hmarked
  · exact hmarked.size_eq
  · exact hmarked.size_eq

/-- Blocks of a segment lie one behind the other, from a start to a stop. -/
def InRow (h : Heap) (i : Nat) : (start : Nat) → List Block → (stop : Nat) → Prop
  | start, [], stop => start = stop
  | start, b :: rest, stop =>
      b.segment = i ∧ b.start = start ∧ h.Headed b ∧ h.InRow i (start + b.size) rest stop

/-- The blocks of a segment fill it up to its top, or to less than a block before the top when the
segment has been left behind. -/
def Filled (h : Heap) (i : Nat) : Prop :=
  ∃ stop, h.InRow i 0 (h.blocksIn i) stop ∧
    (stop = h.topAt i ∨ i < h.current ∧ stop ≤ h.topAt i ∧ h.topAt i < stop + leastBlock)

/-- A block stands in the memory as a free block of a class. -/
def FreeIn (h : Heap) (c : SizeClass) (b : Block) : Prop :=
  b ∈ h.blocksIn b.segment ∧ b.Marked h.memoryAt freeTag ∧ SizeClass.floor b.size = c

/-- How a heap lies, when the given pointers are live. -/
structure Laid (h : Heap) (live : List Pointer) : Prop where
  current_lt : h.current < h.segments.length
  top_le : ∀ i, h.topAt i ≤ h.lengthAt i
  /-- Segments before the current one are used up. -/
  before : ∀ i < h.current, h.topAt i = h.lengthAt i
  /-- Segments behind the current one are unused. -/
  after : ∀ i, h.current < i → h.topAt i = 0
  filled : ∀ i, h.Filled i
  live_perm : h.allocations.Perm live
  live_nodup : live.Nodup
  /-- The links of a class lead through its free blocks, once through each, and the bitmap says whether
  there is one. -/
  listed : ∀ c : SizeClass, ∃ bs, Linked h.memoryAt (h.heads.get c) bs ∧ bs.Nodup ∧
    (∀ b, b ∈ bs ↔ h.FreeIn c b) ∧ (h.occupied.getLsbD c = true ↔ bs ≠ [])
  /-- What a segment has lost is less than a block at its end, and only when it has been left behind. -/
  whole : ∀ i, ∀ x < h.lengthAt i, (∃! b, b ∈ h.blocksIn i ∧ b.Holds i x) ∨
    h.current ≤ i ∧ h.topAt i ≤ x ∨ i < h.current ∧ h.lengthAt i < x + leastBlock

section Layout

variable {h : Heap} {L : List Lease} {F bs : List Block} {b : Block} {i stop most start : Nat}

/-- The walk from header to header finds blocks that lie in a row. -/
theorem Stands.inRow (hstands : Stands bs i stop most start) (ht : Tiled h.ground bs)
    (hcov : Covered bs i stop) (hle : stop ≤ h.ground.top i)
    (hnear : h.ground.top i < stop + leastBlock) (hheaded : ∀ b ∈ bs, h.Headed b) :
    h.InRow i start (blocksFrom (h.memoryAt i) i (h.ground.top i) most start) stop := by
  have hmemory : ∀ b ∈ bs, b.segment = i → (h.memoryAt i).number b.start 4 = b.size := by
    rintro b hb rfl
    exact (hheaded b hb).size_eq
  -- On how many blocks there can still be, as in the walk itself.
  induction most generalizing start with
  | zero =>
      rcases hstands.step ht hcov hle hnear hmemory with ⟨heq, hnil⟩ | ⟨_, _, _, _, _, hzero, -⟩
      · rw [hnil]
        exact heq
      · cases hzero
  | succ most ih =>
      rcases hstands.step ht hcov hle hnear hmemory with
        ⟨heq, hnil⟩ | ⟨b, hb, _, hseg, rfl, hsucc, hcons, hnext⟩
      · rw [hnil]
        exact heq
      · cases hsucc
        rw [hcons]
        exact ⟨hseg, rfl, hheaded b hb, ih hnext⟩

theorem Booked.headed (hk : Booked h ⟨L, F, []⟩) (hb : b ∈ F ++ L.map Lease.block) : h.Headed b := by
  refine ⟨(hk.tiled.fits b hb).size_ge, ?_⟩
  rcases List.mem_append.mp hb with hb | hb
  · exact .inr (hk.marked b hb)
  · obtain ⟨l, hl, rfl⟩ := List.mem_map.mp hb
    exact .inl (hk.held l hl).marked

theorem Booked.filled (hk : Booked h ⟨L, F, []⟩) (i : Nat) : h.Filled i := by
  obtain ⟨stop, hcov, hle, hnear, hgap, hstands⟩ := hk.tiled.exists_stands i
  refine ⟨stop, hstands.inRow hk.tiled hcov hle hnear fun b hb => hk.headed hb, ?_⟩
  exact hgap.imp_right fun hbefore => ⟨hbefore, hle, hnear⟩

theorem Booked.freeIn_iff (hk : Booked h ⟨L, F, []⟩) {c : SizeClass} :
    h.FreeIn c b ↔ b ∈ (Books.mk L F []).filed c := by
  rw [FreeIn, (hk.walk b.segment).1 b, Books.mem_filed]
  constructor
  · rintro ⟨⟨hb, -⟩, hmarked, hclass⟩
    rcases List.mem_append.mp hb with hb | hb
    · exact ⟨hb, hclass⟩
    · obtain ⟨l, hl, rfl⟩ := List.mem_map.mp hb
      have htags : freeTag = usedTag := hmarked.tag_eq.symm.trans (hk.held l hl).marked.tag_eq
      exact absurd htags (by decide)
  · rintro ⟨hb, hclass⟩
    exact ⟨⟨List.mem_append_left _ hb, rfl⟩, hk.marked b hb, hclass⟩

theorem Booked.nodup_filed (hk : Booked h ⟨L, F, []⟩) (c : SizeClass) :
    ((Books.mk L F []).filed c).Nodup := by
  have hblocks : (F ++ L.map Lease.block).Nodup := hk.tiled.nodup
  exact (List.nodup_append.1 hblocks).1.filter _

theorem Booked.whole (hk : Booked h ⟨L, F, []⟩) (i : Nat) {x : Nat} (hx : x < h.lengthAt i) :
    (∃! b, b ∈ h.blocksIn i ∧ b.Holds i x) ∨
      h.current ≤ i ∧ h.topAt i ≤ x ∨ i < h.current ∧ h.lengthAt i < x + leastBlock := by
  obtain ⟨stop, hcov, hle, hgap⟩ := hk.tiled.covered i
  have hgap : stop = h.topAt i ∨ i < h.current ∧ h.topAt i < stop + leastBlock := hgap
  have hfull : i < h.current → h.topAt i = h.lengthAt i := hk.tiled.sound.top_eq_length i
  rcases Nat.lt_or_ge x stop with hbelow | habove
  · left
    obtain ⟨b, hb, hholds⟩ := hcov.whole x hbelow
    refine ⟨b, ⟨((hk.walk i).1 b).2 ⟨hb, hholds.1⟩, hholds⟩, ?_⟩
    rintro c ⟨hc, hcx⟩
    exact hk.tiled.eq_of_holds (((hk.walk i).1 c).1 hc).1 hb hcx hholds
  · right
    rcases Nat.lt_or_ge i h.current with hbefore | hnot
    · have htop := hfull hbefore
      exact .inr ⟨hbefore, by omega⟩
    · exact .inl ⟨hnot, by omega⟩

/-- Whoever has the books knows how the heap lies. -/
theorem Booked.laid (hk : Booked h ⟨L, F, []⟩) : h.Laid (L.map fun l => l.block.pointer) where
  current_lt := hk.tiled.sound.current_lt
  top_le := hk.tiled.sound.top_le
  before := hk.tiled.sound.top_eq_length
  after i hi := hk.tiled.sound.top_eq_zero i (.inl hi)
  filled := hk.filled
  live_perm := hk.allocations_perm
  live_nodup := hk.allocations_perm.nodup_iff.1 hk.nodup_allocations
  listed c := ⟨_, hk.linked c, hk.nodup_filed c, fun _ => hk.freeIn_iff.symm, hk.occupied c⟩
  whole i _ hx := hk.whole i hx

theorem Laid.perm {live live' : List Pointer} (hl : h.Laid live) (hp : live.Perm live') :
    h.Laid live' :=
  { hl with
    live_perm := hl.live_perm.trans hp
    live_nodup := hp.nodup_iff.1 hl.live_nodup }

end Layout

/-! ## Wherever calls lead -/

namespace Custody

/-- The states that careful calls lead to from a new heap, one after the other. A region may also be added
apart from the calls, with anything in its memory. -/
inductive Reachable (s : Settings) : Custody → Prop
  | new {supply : Supply} {h : Heap} (hcreate : create supply s.regionSize s.maxRegions = .ok h) :
      Reachable s (new h)
  | call {c c' : Custody} {call : Call} {answer : Answer} (hc : Reachable s c)
      (hcareful : c.Careful call) (hstep : c.step call = .ok (answer, c')) : Reachable s c'
  | commit {c : Custody} {region : Region} {h : Heap} (hc : Reachable s c)
      (hrun : c.heap.commit region = .ok h) : Reachable s ⟨{ c.client with heap := h }, c.live⟩

section Reachable

variable {s : Settings} {c c' : Custody} {calls : List Call}

theorem Reachable.run (hc : Reachable s c) (hcareful : c.CarefulRun calls)
    (hrun : c.run calls = .ok c') : Reachable s c' := by
  induction calls generalizing c with
  | nil =>
      cases hrun
      exact hc
  | cons call rest ih =>
      obtain ⟨hcall, hrest⟩ := hcareful
      rw [Custody.run] at hrun
      split at hrun
      · next hstep => exact ih (hc.call hcall hstep) (hrest _ _ hstep) hrun
      · cases hrun

theorem reachable_of_reached (hcareful : CarefulFrom s calls) (hreached : reached s calls = some c) :
    Reachable s c := by
  obtain ⟨h, hcreate, hrun⟩ := of_reached hreached
  exact (Reachable.new hcreate).run (hcareful h hcreate) hrun

/-- From accepted settings every reachable state keeps the books. -/
theorem Reachable.kept (hs : s.validate = .ok ()) (hc : Reachable s c) : c.Kept := by
  induction hc with
  | new hcreate =>
      obtain ⟨⟨F, hbooked⟩, -⟩ := accounted_create hs hcreate
      exact ⟨[], F, hbooked, List.Perm.refl _⟩
  | call _ hcareful hstep ih => exact (moves_of_step hstep).kept ih hcareful
  | commit _ hrun ih =>
      obtain ⟨L, F, hbooked, hlive⟩ := ih
      exact ⟨L, F, hbooked.commit hrun, hlive⟩

theorem laid_of_reachable (hs : s.validate = .ok ()) (hc : Reachable s c) : c.heap.Laid c.live := by
  obtain ⟨L, F, hbooked, hlive⟩ := hc.kept hs
  exact hbooked.laid.perm hlive.symm

/-- Settings for two regions, the first of them of 256 bytes. -/
def twoRegions : Settings :=
  { Settings.standard with regionSize := 256, maxRegions := 2 }

/-- Two blocks leave 24 bytes of the first region, too few for the third, which comes from a second region.
Then the first block is given back and lies free before a used one. -/
def leaving : List Call :=
  [.allocate 104, .allocate 112, .commit .ample 1 512, .allocate 64, .free 0 104]

theorem laid_of_reachable_leaving :
    twoRegions.validate = .ok () ∧ ∃ c, Reachable twoRegions c ∧ c.heap.current = 1 ∧
      c.heap.blocksIn 0 = [⟨0, 0, 112⟩, ⟨0, 112, 120⟩] ∧ c.heap.blocksIn 1 = [⟨1, 0, 72⟩] ∧
      c.live = [⟨1, 8⟩, ⟨0, 120⟩] ∧ c.heap.Laid c.live := by
  have hrun : (reached twoRegions leaving).any (fun c => decide (c.heap.current = 1 ∧
      c.heap.blocksIn 0 = [⟨0, 0, 112⟩, ⟨0, 112, 120⟩] ∧ c.heap.blocksIn 1 = [⟨1, 0, 72⟩] ∧
        c.live = [⟨1, 8⟩, ⟨0, 120⟩])) = true := by
    decide +kernel
  have hcareful : CarefulFrom twoRegions leaving := by
    decide +kernel
  obtain ⟨c, hreached, hp⟩ := (Option.any_eq_true _ _).1 hrun
  obtain ⟨hcurrent, hfirst, hsecond, hlive⟩ := of_decide_eq_true hp
  have hc : Reachable twoRegions c := reachable_of_reached hcareful hreached
  exact ⟨rfl, c, hc, hcurrent, hfirst, hsecond, hlive, laid_of_reachable rfl hc⟩

end Reachable

end Custody

end BlockHost.Heap
