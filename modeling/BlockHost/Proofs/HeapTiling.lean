import BlockHost.Proofs.HeapAccess
import Mathlib.Data.List.Nodup
import Mathlib.Data.List.Perm.Subperm

/-!
# Blocks tile the used part of every segment

Where blocks lie is a matter of a few numbers: how long each segment is, how far it has been
used, and which one gives new blocks. This file is about those numbers alone, without the
memory.

A list of blocks tiles the ground (`Tiled`) when every block lies on the eight-byte grid below
the top of its segment, no two of them overlap, and together they cover everything below the
tops. A segment that has been left behind may end in a gap too small for a block. All that the
heap ever does to its blocks is five moves, and each of them keeps the tiling: a block is cut in
two, the top goes up by a new block or down by the last one, the next segment becomes the
current one, and a segment is added.
-/

namespace BlockHost.Heap

/-- Two blocks do not overlap. -/
def Block.Apart (a b : Block) : Prop :=
  a.segment ≠ b.segment ∨ a.start + a.size ≤ b.start ∨ b.start + b.size ≤ a.start

theorem Block.Apart.symm {a b : Block} (h : a.Apart b) : b.Apart a := by
  rcases h with h | h | h
  · exact Or.inl (Ne.symm h)
  · exact Or.inr (Or.inr h)
  · exact Or.inr (Or.inl h)

/-- An address of a block. -/
def Block.Holds (b : Block) (segment x : Nat) : Prop :=
  b.segment = segment ∧ b.start ≤ x ∧ x < b.start + b.size

/-- What the places of blocks depend on. -/
structure Ground where
  count : Nat
  length : Nat → Nat
  top : Nat → Nat
  current : Nat
  baseSize : Nat
  maxRegions : Nat

/-- The ground of a heap. -/
def ground (h : Heap) : Ground where
  count := h.segments.length
  length := h.lengthAt
  top := h.topAt
  current := h.current
  baseSize := h.baseSize
  maxRegions := h.maxRegions

namespace Ground

/-- Segments are as long as their indices say, all lengths are 32-bit numbers on the grid, the
segments before the current one are used up, and those behind it are unused. -/
structure Sound (g : Ground) : Prop where
  base_mod : g.baseSize % 8 = 0
  base_ge : 4 * leastBlock ≤ g.baseSize
  last_lt : g.baseSize * 2 ^ (g.maxRegions - 1) < 2 ^ 32
  regions_le : g.maxRegions ≤ regionLimit
  count_le : g.count ≤ g.maxRegions
  current_lt : g.current < g.count
  length_eq : ∀ i < g.count, g.length i = g.baseSize * 2 ^ i
  top_le : ∀ i, g.top i ≤ g.length i
  top_mod : ∀ i, g.top i % 8 = 0
  top_eq_length : ∀ i < g.current, g.top i = g.length i
  top_eq_zero : ∀ i, g.current < i ∨ g.count ≤ i → g.top i = 0

/-- The ground with another top of a segment. -/
def setTop (g : Ground) (i top : Nat) : Ground :=
  { g with top := fun j => if j = i then top else g.top j }

/-- The ground whose next segment is the current one. -/
def advance (g : Ground) : Ground :=
  { g with current := g.current + 1 }

/-- The ground with one more segment. -/
def grow (g : Ground) : Ground :=
  { g with count := g.count + 1
           length := fun j => if j = g.count then g.baseSize * 2 ^ g.count else g.length j }

variable {g : Ground}

theorem Sound.length_lt (hg : g.Sound) {i : Nat} (hi : i < g.count) : g.length i < 2 ^ 32 := by
  have hpow : 2 ^ i ≤ 2 ^ (g.maxRegions - 1) :=
    Nat.pow_le_pow_right (by omega) (by have := hg.count_le; omega)
  calc g.length i = g.baseSize * 2 ^ i := hg.length_eq i hi
    _ ≤ g.baseSize * 2 ^ (g.maxRegions - 1) := Nat.mul_le_mul_left _ hpow
    _ < 2 ^ 32 := hg.last_lt

theorem Sound.length_mod (hg : g.Sound) {i : Nat} (hi : i < g.count) : g.length i % 8 = 0 := by
  rw [hg.length_eq i hi, Nat.mul_mod, hg.base_mod]
  simp

theorem Sound.setTop (hg : g.Sound) {top : Nat} (hle : top ≤ g.length g.current)
    (hmod : top % 8 = 0) : (g.setTop g.current top).Sound where
  base_mod := hg.base_mod
  base_ge := hg.base_ge
  last_lt := hg.last_lt
  regions_le := hg.regions_le
  count_le := hg.count_le
  current_lt := hg.current_lt
  length_eq := hg.length_eq
  top_le i := by
    simp only [Ground.setTop]
    split
    · next hi => rw [hi]; exact hle
    · exact hg.top_le i
  top_mod i := by
    simp only [Ground.setTop]
    split
    · exact hmod
    · exact hg.top_mod i
  top_eq_length i hi := (if_neg (Nat.ne_of_lt hi)).trans (hg.top_eq_length i hi)
  top_eq_zero i hi := by
    have hcur := hg.current_lt
    simp only [Ground.setTop] at hi ⊢
    rw [if_neg (by omega)]
    exact hg.top_eq_zero i hi

theorem Sound.advance (hg : g.Sound) (hnext : g.current + 1 < g.count)
    (hfull : g.top g.current = g.length g.current) : g.advance.Sound where
  base_mod := hg.base_mod
  base_ge := hg.base_ge
  last_lt := hg.last_lt
  regions_le := hg.regions_le
  count_le := hg.count_le
  current_lt := hnext
  length_eq := hg.length_eq
  top_le := hg.top_le
  top_mod := hg.top_mod
  top_eq_length i hi := by
    rcases Nat.eq_or_lt_of_le (Nat.le_of_lt_succ hi) with rfl | hlt
    · exact hfull
    · exact hg.top_eq_length i hlt
  top_eq_zero i hi := hg.top_eq_zero i (by simp only [Ground.advance] at hi; omega)

theorem Sound.grow (hg : g.Sound) (hroom : g.count < g.maxRegions) : g.grow.Sound where
  base_mod := hg.base_mod
  base_ge := hg.base_ge
  last_lt := hg.last_lt
  regions_le := hg.regions_le
  count_le := hroom
  current_lt := Nat.lt_succ_of_lt hg.current_lt
  length_eq i hi := by
    simp only [Ground.grow] at hi ⊢
    split
    · next h => rw [h]
    · exact hg.length_eq i (by omega)
  top_le i := by
    simp only [Ground.grow]
    split
    · next hi =>
        rw [hg.top_eq_zero i (Or.inr (by omega))]
        exact Nat.zero_le _
    · exact hg.top_le i
  top_mod := hg.top_mod
  top_eq_length i hi := by
    have hne : i ≠ g.count := Nat.ne_of_lt (Nat.lt_trans hi hg.current_lt)
    exact (hg.top_eq_length i hi).trans (if_neg hne).symm
  top_eq_zero i hi := hg.top_eq_zero i (by simp only [Ground.grow] at hi; omega)

end Ground

/-! ## The tiling -/

/-- A block lies on the grid, below the top of its segment. -/
structure Block.Fits (b : Block) (g : Ground) : Prop where
  start_mod : b.start % 8 = 0
  size_mod : b.size % 8 = 0
  size_ge : leastBlock ≤ b.size
  stop_le : b.start + b.size ≤ g.top b.segment

/-- The blocks of a segment end at `stop` and leave nothing out before it. -/
structure Covered (bs : List Block) (segment stop : Nat) : Prop where
  within : ∀ b ∈ bs, b.segment = segment → b.start + b.size ≤ stop
  whole : ∀ x < stop, ∃ b ∈ bs, b.Holds segment x

/-- Blocks that tile the used part of every segment, up to a gap too small for a block in the
segments that have been left behind. -/
structure Tiled (g : Ground) (bs : List Block) : Prop where
  sound : g.Sound
  fits : ∀ b ∈ bs, b.Fits g
  apart : bs.Pairwise Block.Apart
  covered : ∀ i, ∃ stop, Covered bs i stop ∧ stop ≤ g.top i ∧
    (stop = g.top i ∨ i < g.current ∧ g.top i < stop + leastBlock)

section Moves

variable {g : Ground} {b : Block} {bs bs' : List Block}

theorem Block.Fits.segment_lt (hb : b.Fits g) (hg : g.Sound) : b.segment < g.count := by
  rcases Nat.lt_or_ge b.segment g.count with hlt | hge
  · exact hlt
  · have h0 := hg.top_eq_zero b.segment (Or.inr hge)
    have hstop := hb.stop_le
    have hsize := hb.size_ge
    unfold leastBlock at hsize
    omega

theorem Block.Fits.stop_lt (hb : b.Fits g) (hg : g.Sound) : b.start + b.size < 2 ^ 32 := by
  have hlen := hg.length_lt (hb.segment_lt hg)
  have htop := hg.top_le b.segment
  have hstop := hb.stop_le
  omega

theorem Covered.congr {i stop : Nat} (h : Covered bs i stop)
    (hmem : ∀ b, b ∈ bs' ↔ b ∈ bs) : Covered bs' i stop where
  within b hb := h.within b ((hmem b).1 hb)
  whole x hx := by
    obtain ⟨b, hb, hold⟩ := h.whole x hx
    exact ⟨b, (hmem b).2 hb, hold⟩

theorem Tiled.empty (hmod : g.baseSize % 8 = 0) (hbase : 4 * leastBlock ≤ g.baseSize)
    (hlast : g.baseSize * 2 ^ (g.maxRegions - 1) < 2 ^ 32) (hregions : g.maxRegions ≤ regionLimit)
    (hpos : 1 ≤ g.maxRegions) (hcount : g.count = 1) (hcurrent : g.current = 0)
    (hlength : g.length 0 = g.baseSize) (htop : ∀ i, g.top i = 0) : Tiled g [] where
  sound := by
    refine ⟨hmod, hbase, hlast, hregions, by omega, by omega, fun i hi => ?_, fun i => ?_,
      fun i => ?_, fun i hi => ?_, fun i _ => htop i⟩
    · rw [show i = 0 by omega, hlength, Nat.pow_zero, Nat.mul_one]
    · rw [htop i]
      exact Nat.zero_le _
    · rw [htop i]
    · omega
  fits b hb := by cases hb
  apart := List.Pairwise.nil
  covered i := by
    refine ⟨0, ⟨fun b hb => (nomatch hb), fun x hx => absurd hx (Nat.not_lt_zero x)⟩, ?_, Or.inl ?_⟩
    · exact Nat.zero_le _
    · exact (htop i).symm

theorem Tiled.perm (h : Tiled g bs) (hp : bs.Perm bs') : Tiled g bs' where
  sound := h.sound
  fits b hb := h.fits b (hp.mem_iff.2 hb)
  apart := hp.pairwise h.apart fun hab => hab.symm
  covered i := by
    obtain ⟨stop, hc, hle, hgap⟩ := h.covered i
    exact ⟨stop, hc.congr fun b => hp.mem_iff.symm, hle, hgap⟩

theorem Tiled.cut {i start first rest : Nat} (h : Tiled g (⟨i, start, first + rest⟩ :: bs))
    (hfirst : leastBlock ≤ first) (hrest : leastBlock ≤ rest) (hmod : first % 8 = 0) :
    Tiled g (⟨i, start, first⟩ :: ⟨i, start + first, rest⟩ :: bs) where
  sound := h.sound
  fits b hb := by
    have hwhole := h.fits _ List.mem_cons_self
    have hs := hwhole.start_mod
    have hz := hwhole.size_mod
    have ht := hwhole.stop_le
    simp only at hs hz ht
    rcases List.mem_cons.mp hb with rfl | hb
    · exact ⟨hs, hmod, hfirst, by simp only; omega⟩
    rcases List.mem_cons.mp hb with rfl | hb
    · exact ⟨by simp only; omega, by simp only; omega, hrest, by simp only; omega⟩
    · exact h.fits b (List.mem_cons_of_mem _ hb)
  apart := by
    obtain ⟨hhead, htail⟩ := List.pairwise_cons.1 h.apart
    refine List.pairwise_cons.2 ⟨fun b hb => ?_, List.pairwise_cons.2 ⟨fun b hb => ?_, htail⟩⟩
    · rcases List.mem_cons.mp hb with rfl | hb
      · exact Or.inr (Or.inl (Nat.le_refl _))
      · have := hhead b hb
        simp only [Block.Apart] at this ⊢
        omega
    · have := hhead b hb
      simp only [Block.Apart] at this ⊢
      omega
  covered j := by
    obtain ⟨stop, hc, hle, hgap⟩ := h.covered j
    refine ⟨stop, ⟨fun b hb hseg => ?_, fun x hx => ?_⟩, hle, hgap⟩
    · rcases List.mem_cons.mp hb with rfl | hb
      · have := hc.within _ List.mem_cons_self hseg
        simp only at this ⊢
        omega
      rcases List.mem_cons.mp hb with rfl | hb
      · have := hc.within _ List.mem_cons_self hseg
        simp only at this ⊢
        omega
      · exact hc.within b (List.mem_cons_of_mem _ hb) hseg
    · obtain ⟨b, hb, hseg, hlow, hhigh⟩ := hc.whole x hx
      rcases List.mem_cons.mp hb with rfl | hb
      · simp only at hseg hlow hhigh
        rcases Nat.lt_or_ge x (start + first) with hlt | hge
        · exact ⟨_, List.mem_cons_self, hseg, hlow, hlt⟩
        · exact ⟨_, List.mem_cons_of_mem _ List.mem_cons_self, hseg, hge, by simp only; omega⟩
      · exact ⟨b, List.mem_cons_of_mem _ (List.mem_cons_of_mem _ hb), hseg, hlow, hhigh⟩

theorem Tiled.raise (h : Tiled g bs) (size : Nat) (hsize : leastBlock ≤ size) (hmod : size % 8 = 0)
    (hroom : g.top g.current + size ≤ g.length g.current) :
    Tiled (g.setTop g.current (g.top g.current + size))
      (⟨g.current, g.top g.current, size⟩ :: bs) where
  sound := h.sound.setTop hroom (by have := h.sound.top_mod g.current; omega)
  fits b hb := by
    rcases List.mem_cons.mp hb with rfl | hb
    · exact ⟨h.sound.top_mod _, hmod, hsize, by simp [Ground.setTop]⟩
    · have hf := h.fits b hb
      refine ⟨hf.start_mod, hf.size_mod, hf.size_ge, ?_⟩
      have hstop := hf.stop_le
      simp only [Ground.setTop]
      split
      · next heq => rw [heq] at hstop; omega
      · exact hstop
  apart := by
    refine List.pairwise_cons.2 ⟨fun b hb => ?_, h.apart⟩
    by_cases hseg : b.segment = g.current
    · have hstop := (h.fits b hb).stop_le
      rw [hseg] at hstop
      exact Or.inr (Or.inr hstop)
    · exact Or.inl (Ne.symm hseg)
  covered j := by
    obtain ⟨stop, hc, hle, hgap⟩ := h.covered j
    by_cases hj : j = g.current
    · subst hj
      refine ⟨g.top g.current + size, ⟨fun b hb hseg => ?_, fun x hx => ?_⟩,
        by simp [Ground.setTop], Or.inl (by simp [Ground.setTop])⟩
      · rcases List.mem_cons.mp hb with rfl | hb
        · exact Nat.le_refl _
        · have := hc.within b hb hseg
          omega
      · rcases Nat.lt_or_ge x (g.top g.current) with hlt | hge
        · obtain ⟨b, hb, hold⟩ := hc.whole x (by omega)
          exact ⟨b, List.mem_cons_of_mem _ hb, hold⟩
        · exact ⟨_, List.mem_cons_self, rfl, hge, hx⟩
    · refine ⟨stop, ⟨fun b hb hseg => ?_, fun x hx => ?_⟩, by simpa [Ground.setTop, hj] using hle,
        by simpa [Ground.setTop, hj] using hgap⟩
      · rcases List.mem_cons.mp hb with rfl | hb
        · exact absurd hseg.symm hj
        · exact hc.within b hb hseg
      · obtain ⟨b, hb, hold⟩ := hc.whole x hx
        exact ⟨b, List.mem_cons_of_mem _ hb, hold⟩

theorem Tiled.lower (h : Tiled g (b :: bs)) (hseg : b.segment = g.current)
    (hstop : b.start + b.size = g.top g.current) :
    Tiled (g.setTop g.current b.start) bs := by
  have hb := h.fits b List.mem_cons_self
  have hsize := hb.size_ge
  have htop := h.sound.top_le g.current
  obtain ⟨hhead, htail⟩ := List.pairwise_cons.1 h.apart
  -- The other blocks of the segment are apart from the last one, and so end at or before it.
  have hbelow : ∀ c ∈ bs, c.segment = g.current → c.start + c.size ≤ b.start := by
    intro c hc hcseg
    have hfits := h.fits c (List.mem_cons_of_mem _ hc)
    have hcstop := hfits.stop_le
    have hcsize := hfits.size_ge
    rw [hcseg] at hcstop
    unfold leastBlock at hcsize
    rcases hhead c hc with hne | hle | hle
    · exact absurd (hseg.trans hcseg.symm) hne
    · omega
    · exact hle
  refine ⟨h.sound.setTop (by omega) hb.start_mod, fun c hc => ?_, htail, fun j => ?_⟩
  · have hf := h.fits c (List.mem_cons_of_mem _ hc)
    refine ⟨hf.start_mod, hf.size_mod, hf.size_ge, ?_⟩
    simp only [Ground.setTop]
    split
    · next heq => exact hbelow c hc heq
    · exact hf.stop_le
  · obtain ⟨stop, hcov, hle, hgap⟩ := h.covered j
    by_cases hj : j = g.current
    · subst hj
      refine ⟨b.start, ⟨hbelow, fun x hx => ?_⟩, by simp [Ground.setTop],
        Or.inl (by simp [Ground.setTop])⟩
      obtain ⟨c, hc, hold⟩ := hcov.whole x (by omega)
      rcases List.mem_cons.mp hc with rfl | hc
      · exact absurd hold.2.1 (by omega)
      · exact ⟨c, hc, hold⟩
    · refine ⟨stop, ⟨fun c hc hcseg => hcov.within c (List.mem_cons_of_mem _ hc) hcseg,
        fun x hx => ?_⟩, by simpa [Ground.setTop, hj] using hle,
        by simpa [Ground.setTop, hj] using hgap⟩
      obtain ⟨c, hc, hold⟩ := hcov.whole x hx
      rcases List.mem_cons.mp hc with rfl | hc
      · exact absurd (hold.1.symm.trans hseg) hj
      · exact ⟨c, hc, hold⟩

theorem Tiled.advance (h : Tiled g bs) (hnext : g.current + 1 < g.count)
    (hfull : g.top g.current = g.length g.current) : Tiled g.advance bs where
  sound := h.sound.advance hnext hfull
  fits b hb := ⟨(h.fits b hb).start_mod, (h.fits b hb).size_mod, (h.fits b hb).size_ge,
    (h.fits b hb).stop_le⟩
  apart := h.apart
  covered i := by
    obtain ⟨stop, hc, hle, hgap⟩ := h.covered i
    refine ⟨stop, hc, hle, ?_⟩
    simp only [Ground.advance]
    omega

/-- The next segment becomes the current one, and what is left of the segment before is too
small for a block. -/
theorem Tiled.abandon (h : Tiled g bs) (hnext : g.current + 1 < g.count)
    (hsmall : g.length g.current < g.top g.current + leastBlock) :
    Tiled (g.setTop g.current (g.length g.current)).advance bs where
  sound :=
    (h.sound.setTop (Nat.le_refl _) (h.sound.length_mod h.sound.current_lt)).advance hnext
      (if_pos rfl)
  fits b hb := by
    have hf := h.fits b hb
    refine ⟨hf.start_mod, hf.size_mod, hf.size_ge, ?_⟩
    have hstop := hf.stop_le
    have htop := h.sound.top_le b.segment
    simp only [Ground.advance, Ground.setTop]
    split
    · next heq => rw [← heq]; omega
    · exact hstop
  apart := h.apart
  covered i := by
    obtain ⟨stop, hc, hle, hgap⟩ := h.covered i
    refine ⟨stop, hc, ?_, ?_⟩
    · have htop := h.sound.top_le i
      simp only [Ground.advance, Ground.setTop]
      split
      · next heq => rw [← heq]; omega
      · exact hle
    · simp only [Ground.advance, Ground.setTop]
      split
      · next heq => subst heq; omega
      · omega

theorem Tiled.grow (h : Tiled g bs) (hroom : g.count < g.maxRegions) : Tiled g.grow bs where
  sound := h.sound.grow hroom
  fits b hb := ⟨(h.fits b hb).start_mod, (h.fits b hb).size_mod, (h.fits b hb).size_ge,
    (h.fits b hb).stop_le⟩
  apart := h.apart
  covered := h.covered

end Moves

/-! ## How much there can be

Blocks that do not overlap hold different addresses, and there are only so many of those. -/

/-- The addresses of a block, all segments in a row. -/
def Block.addresses (b : Block) : List Nat :=
  List.range' (b.segment * 2 ^ 32 + b.start) b.size

theorem Block.Apart.addresses_disjoint {a b : Block} (h : a.Apart b)
    (ha : a.start + a.size < 2 ^ 32) (hb : b.start + b.size < 2 ^ 32) :
    a.addresses.Disjoint b.addresses := by
  intro x hxa hxb
  simp only [Block.addresses, List.mem_range'_1] at hxa hxb
  rcases h with hne | hle | hle <;> omega

/-- The blocks together are no larger than the segments. -/
theorem Tiled.sum_size_le_lengths {g : Ground} {bs : List Block} (h : Tiled g bs) :
    (bs.map Block.size).sum ≤ ((List.range g.count).map g.length).sum := by
  have hstop : ∀ b ∈ bs, b.start + b.size < 2 ^ 32 := fun b hb => (h.fits b hb).stop_lt h.sound
  have hnodup : (bs.flatMap Block.addresses).Nodup := by
    refine List.nodup_flatMap.2 ⟨fun b _ => List.nodup_range', ?_⟩
    exact h.apart.imp_of_mem fun ha hb hab => hab.addresses_disjoint (hstop _ ha) (hstop _ hb)
  have hrange : bs.flatMap Block.addresses ⊆
      (List.range g.count).flatMap fun i => List.range' (i * 2 ^ 32) (g.length i) := by
    intro x hx
    obtain ⟨b, hb, hxb⟩ := List.mem_flatMap.1 hx
    have hseg := (h.fits b hb).segment_lt h.sound
    have hend := (h.fits b hb).stop_le
    have htop := h.sound.top_le b.segment
    rw [Block.addresses, List.mem_range'_1] at hxb
    have hmem : x ∈ List.range' (b.segment * 2 ^ 32) (g.length b.segment) :=
      List.mem_range'_1.2 ⟨by omega, by omega⟩
    rw [List.mem_flatMap]
    exact ⟨b.segment, List.mem_range.2 hseg, hmem⟩
  have hle := (hnodup.subperm hrange).length_le
  simp only [List.length_flatMap, Block.addresses, List.length_range'] at hle
  exact hle

theorem Tiled.sum_size_le {g : Ground} {bs : List Block} (h : Tiled g bs) :
    (bs.map Block.size).sum ≤ regionLimit * 2 ^ 32 := by
  have hcount : g.count ≤ regionLimit := Nat.le_trans h.sound.count_le h.sound.regions_le
  have hlengths : ∀ n ≤ g.count, ((List.range n).map g.length).sum ≤ n * 2 ^ 32 := by
    intro n hn
    induction n with
    | zero => exact Nat.zero_le _
    | succ n ih =>
        have hrest := ih (by omega)
        have hlast := h.sound.length_lt (show n < g.count by omega)
        rw [List.range_succ, List.map_append, List.sum_append, List.map_singleton,
          List.sum_singleton]
        omega
  calc (bs.map Block.size).sum
    _ ≤ ((List.range g.count).map g.length).sum := h.sum_size_le_lengths
    _ ≤ g.count * 2 ^ 32 := hlengths g.count (Nat.le_refl _)
    _ ≤ regionLimit * 2 ^ 32 := Nat.mul_le_mul_right _ hcount

end BlockHost.Heap
