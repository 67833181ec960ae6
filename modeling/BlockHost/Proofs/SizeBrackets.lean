import BlockHost.Proofs.Exhaustion
import BlockHost.Proofs.HeapLayout
import Mathlib.Order.Bounds.Basic

/-!
# What a class says of a size

A block is filed under the greatest class that begins at or below its size, and a request looks from the
least class that begins at or above its own. Larger sizes have no smaller classes, and the two classes of a
size are the same or next to each other. The sizes of blocks keep the classes away from the last one, so
that no class number has to be cut, and there is always a class from which to look (`SizeClass.Brackets`).

What this is for is said of the blocks that lie in the lists of a heap, wherever calls have led
(`Heap.classes_bracket`). A request finds large enough blocks in the lists in which it looks. In those in
which it does not look there may be large enough ones as well, but they are below the least size of the
class from which it looks, which is at most a quarter more than what it needs.
-/

namespace BlockHost

namespace SizeClass

section Brackets

variable {need size larger : Nat} {c d least : SizeClass}

theorem floor_isGreatest (hsize : size ∈ sizes) :
    IsGreatest {c : SizeClass | c.lower ≤ size} (floor size) :=
  ⟨lower_floor_le hsize, fun _ hc => (lower_le_iff hsize).1 hc⟩

theorem ceil_isLeast (hneed : need ∈ sizes) (hceil : ceil need = some least) :
    IsLeast {c : SizeClass | need ≤ c.lower} least :=
  ⟨(le_lower_iff hneed hceil).2 le_rfl, fun _ hc => (le_lower_iff hneed hceil).1 hc⟩

theorem ceil_mono (hneed : need ∈ sizes) (hlarger : larger ∈ sizes) (hle : need ≤ larger)
    (hc : ceil need = some c) (hd : ceil larger = some d) : c ≤ d :=
  (le_lower_iff hneed hc).1 (Nat.le_trans hle ((le_lower_iff hlarger hd).2 le_rfl))

/-- A block that is filed below the class from which a request looks is smaller than this class. -/
theorem lt_lower_of_floor_lt (hsize : size ∈ sizes) (hlt : floor size < least) : size < least.lower :=
  Nat.lt_of_not_le fun hle => not_le_of_gt hlt ((lower_le_iff hsize).1 hle)

end Brackets

/-- What is to be known of a size and of the class from which a request for it looks. -/
structure Brackets (need : Nat) (least : SizeClass) : Prop where
  /-- The number of the class has not been cut, and there is a class behind it. -/
  floor_eq : (floor need).val = number need ∧ number need + 1 < classCount
  floor_greatest : IsGreatest {c : SizeClass | c.lower ≤ need} (floor need)
  ceil_eq : ceil need = some least
  ceil_least : IsLeast {c : SizeClass | need ≤ c.lower} least
  le_succ : least.val ≤ (floor need).val + 1
  floor_mono : ∀ larger ∈ sizes, need ≤ larger → floor need ≤ floor larger
  ceil_mono : ∀ larger ∈ sizes, need ≤ larger → ∀ c, ceil larger = some c → least ≤ c
  quarter : 4 * least.lower ≤ 5 * need
  /-- What is filed where the request looks suffices for it, and what is filed below is smaller than any
  block there has to be. -/
  sorts : ∀ size ∈ sizes,
    (least ≤ floor size → need ≤ size) ∧ (floor size < least → size < least.lower)

theorem exists_brackets {need : Nat} (hneed : need ∈ sizes) : ∃ least, Brackets need least := by
  obtain ⟨least, hceil, hcases⟩ := ceil_cases hneed
  refine ⟨least, number_lt hneed, floor_isGreatest hneed, hceil, ceil_isLeast hneed hceil, ?_,
    fun larger hlarger => SizeClass.floor_mono hneed hlarger,
    fun larger hlarger hle c hc => SizeClass.ceil_mono hneed hlarger hle hceil hc,
    four_lower_le_of_ceil hneed hceil, fun size hsize => ⟨fun hle => ?_, lt_lower_of_floor_lt hsize⟩⟩
  · rcases hcases with ⟨rfl, -⟩ | ⟨hnext, -⟩
    · exact Nat.le_succ _
    · exact Nat.le_of_eq hnext
  · exact le_of_ceil_le_floor hneed.1 hneed.2 hsize.1 hsize.2 hceil hle

end SizeClass

namespace Heap

open SizeClass

/-- A block in the list of a class has a size whose class it is. -/
theorem Booked.floor_of_freeListed {h : Heap} {L : List Lease} {F : List Block}
    (hk : Booked h ⟨L, F, []⟩) {c : SizeClass} {b : Block} (hb : h.FreeListed c b) :
    b.size ∈ sizes ∧ floor b.size = c := by
  obtain ⟨hfree, hclass⟩ := Books.mem_filed.1 (hk.mem_filed_of_freeListed hb)
  obtain ⟨-, hstop, hleast⟩ := hk.bounds (hk.mem_of_free hfree)
  exact ⟨⟨hleast, by omega⟩, hclass⟩

/-- Classes begin at larger and larger sizes, and every size that a block can have is bracketed by two of
them. In a heap these tell the blocks in the lists from one another. -/
theorem classes_bracket :
    StrictMono lower ∧ ∀ need ∈ sizes, ∃ least, Brackets need least ∧
      ∀ (s : Settings) (c : Custody), s.validate = .ok () → Custody.Reachable s c →
        ∀ (d : SizeClass) (b : Block), c.heap.FreeListed d b →
          (least ≤ d → need ≤ b.size) ∧ (d < least → b.size < least.lower) := by
  refine ⟨lower_strictMono, fun need hneed => ?_⟩
  obtain ⟨least, hleast⟩ := exists_brackets hneed
  refine ⟨least, hleast, fun s c hs hc d b hb => ?_⟩
  obtain ⟨L, F, hbooked, -⟩ := hc.kept hs
  obtain ⟨hsize, rfl⟩ := hbooked.floor_of_freeListed hb
  exact hleast.sorts b.size hsize

/-- The class of a free block of 112 bytes begins with it. The block is found by a request for 104 bytes,
whose own class is the one before, and missed by a request for 120 bytes, which are in the same class. -/
theorem classes_bracket_leaving :
    104 ∈ sizes ∧ Brackets 104 (floor 112) ∧ 120 ∈ sizes ∧ Brackets 120 (floor 128) ∧
      Custody.twoRegions.validate = .ok () ∧ ∃ c b, Custody.Reachable Custody.twoRegions c ∧
        c.heap.FreeListed (floor 112) b ∧ 104 ≤ b.size ∧ b.size < (floor 128).lower := by
  have hrun : (Custody.reached Custody.twoRegions Custody.leaving).any
      (fun c => decide (c.heap.heads.get (floor 112) ≠ noLink)) = true := by
    decide +kernel
  have hcareful : Custody.CarefulFrom Custody.twoRegions Custody.leaving := by
    decide +kernel
  obtain ⟨c, hreached, hlink⟩ := (Option.any_eq_true _ _).1 hrun
  have hc := Custody.reachable_of_reached hcareful hreached
  have hb : c.heap.FreeListed (floor 112) _ := Listed.here (of_decide_eq_true hlink)
  have hsmall : 104 ∈ sizes := ⟨by decide, by decide⟩
  have hlarge : 120 ∈ sizes := ⟨by decide, by decide⟩
  obtain ⟨found, hfound, hfinds⟩ := classes_bracket.2 104 hsmall
  obtain ⟨missed, hmissed, hmisses⟩ := classes_bracket.2 120 hlarge
  obtain rfl : found = floor 112 := Option.some.inj (hfound.ceil_eq.symm.trans (by decide +kernel))
  obtain rfl : missed = floor 128 := Option.some.inj (hmissed.ceil_eq.symm.trans (by decide +kernel))
  exact ⟨hsmall, hfound, hlarge, hmissed, rfl, c, _, hc, hb, (hfinds _ c rfl hc _ _ hb).1 le_rfl,
    (hmisses _ c rfl hc _ _ hb).2 (by decide +kernel)⟩

end Heap

end BlockHost
