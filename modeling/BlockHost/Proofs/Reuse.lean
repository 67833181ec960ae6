import BlockHost.Proofs.HeapRuns

/-!
# When freed memory is found again

A block is filed under the greatest class whose least size it reaches, and a request looks from the
least class on whose every block suffices. For most sizes these are two neighbours, and then a block
that has been cut to the size of a request lies where the same request does not look. So memory that
has been given back need not be found by a request for as much, and a client that allocates and frees
the same size over and over can run dry although it never holds more than one block.

What does hold is said here exactly (`runs_reuse`). After a block has been given back, a request for as
much is served if the block was the last one below the top of the current segment, which then has moved
down, or if it lies in a class where the request looks (`SizeClass.Finds`), and else only if it would
have been served before as well. Allocating and freeing in turns goes on for ever as soon as the block
of one turn comes back in one of the first two ways, because then the next turn finds either the room or
the block again (`Steady`).
-/

namespace BlockHost

namespace SizeClass

variable {need size : Nat}

/-- A request for a block of some size looks where a block of another size is filed. -/
def Finds (need size : Nat) : Prop :=
  ∃ c, ceil need = some c ∧ c ≤ floor size

theorem floor_le_of_ceil {c : SizeClass} (hc : ceil need = some c) : floor need ≤ c := by
  rw [ceil] at hc
  split at hc
  · cases hc
    exact Nat.le_refl (floor need).val
  · split at hc
    · cases hc
      exact Nat.le_succ (floor need).val
    · cases hc

/-- A size with which a class begins is looked for in that class, and every larger block is found. -/
theorem finds_of_lower (hneed : leastBlock ≤ need) (hlower : (floor need).lower = need)
    (hle : need ≤ size) (hsize : size < 2 ^ 32) : Finds need size := by
  refine ⟨floor need, ?_, floor_mono ⟨hneed, Nat.lt_of_le_of_lt hle hsize⟩
    ⟨Nat.le_trans hneed hle, hsize⟩ hle⟩
  rw [ceil]
  exact if_pos (Nat.le_of_eq hlower.symm)

end SizeClass

namespace Heap

/-! ## The search -/

section Search

variable {h : Heap} {k : Books} {c d : SizeClass} {need : Nat}

theorem firstOccupied_eq_some :
    h.firstOccupied c = some d ↔ c ≤ d ∧ h.occupied.getLsbD d = true ∧
      ∀ e, c ≤ e → e < d → h.occupied.getLsbD e = false := by
  rw [firstOccupied, List.find?_eq_some_iff_getElem]
  simp only [Bool.and_eq_true, decide_eq_true_eq, List.getElem_finRange, Bool.not_eq_true']
  constructor
  · rintro ⟨⟨hle, hbit⟩, i, hi, rfl, hbefore⟩
    refine ⟨hle, hbit, fun e hce hed => ?_⟩
    have hempty := hbefore e.val hed
    rw [Bool.and_eq_false_imp] at hempty
    exact hempty (decide_eq_true hce)
  · rintro ⟨hle, hbit, hbefore⟩
    refine ⟨⟨hle, hbit⟩, d.val, by simp, rfl, fun j hj => ?_⟩
    rw [Bool.and_eq_false_imp]
    intro hce
    exact hbefore _ (of_decide_eq_true hce) hj

theorem firstOccupied_eq_none :
    h.firstOccupied c = none ↔ ∀ d, c ≤ d → h.occupied.getLsbD d = false := by
  rw [firstOccupied, List.find?_eq_none]
  simp only [Bool.and_eq_true, decide_eq_true_eq, List.mem_finRange, true_imp_iff, not_and,
    Bool.not_eq_true]
  rfl

theorem Booked.unoccupied (hk : Booked h k) (c : SizeClass) :
    h.occupied.getLsbD c = false ↔ k.filed c = [] := by
  have hiff := hk.occupied c
  rw [← Bool.not_eq_true, hiff, not_not]

theorem Books.mem_filed {b : Block} : b ∈ k.filed c ↔ b ∈ k.free ∧ SizeClass.floor b.size = c := by
  rw [Books.filed, List.mem_filter, decide_eq_true_eq]

/-- The search ends in a class exactly when a free block is filed where it looks. -/
theorem Booked.search_ne_none (hk : Booked h k) :
    (SizeClass.ceil need).bind h.firstOccupied ≠ none ↔
      ∃ b ∈ k.free, SizeClass.Finds need b.size := by
  constructor
  · intro hne
    obtain ⟨d, hd⟩ := Option.ne_none_iff_exists'.1 hne
    obtain ⟨c, hceil, hfirst⟩ := Option.bind_eq_some_iff.1 hd
    obtain ⟨hle, hbit, -⟩ := firstOccupied_eq_some.1 hfirst
    obtain ⟨b, hb⟩ := List.exists_mem_of_ne_nil _ ((hk.occupied d).1 hbit)
    obtain ⟨hfree, rfl⟩ := Books.mem_filed.1 hb
    exact ⟨b, hfree, c, hceil, hle⟩
  · rintro ⟨b, hfree, c, hceil, hle⟩ hnone
    rw [hceil, Option.bind_some, firstOccupied_eq_none] at hnone
    have hempty := (hk.unoccupied _).1 (hnone _ hle)
    exact List.ne_nil_of_mem (Books.mem_filed.2 ⟨hfree, rfl⟩) hempty

end Search

/-! ## What a request can have -/

/-- The operation is answered. -/
def Answers {α : Type} (op : HeapAction α) (h : Heap) : Prop :=
  ∃ a h', op h = .ok a h'

/-- The operation is refused for lack of memory. -/
def Exhausts {α : Type} (op : HeapAction α) (h : Heap) : Prop :=
  ∃ h', op h = .error (.refused .outOfMemory) h'

instance {α : Type} (op : HeapAction α) (h : Heap) : Decidable (Answers op h) :=
  match hrun : op h with
  | .ok a h' => isTrue ⟨a, h', hrun⟩
  | .error _ _ => isFalse fun ⟨_, _, heq⟩ => by rw [hrun] at heq; cases heq

instance {α : Type} (op : HeapAction α) (h : Heap) : Decidable (Exhausts op h) :=
  match hrun : op h with
  | .ok _ _ => isFalse fun ⟨_, heq⟩ => by rw [hrun] at heq; cases heq
  | .error stop h' =>
      if hstop : stop = .refused .outOfMemory then isTrue ⟨h', hstop ▸ hrun⟩
      else isFalse fun ⟨_, heq⟩ => by rw [hrun] at heq; cases heq; exact hstop rfl

/-- Some free block is filed where a request looks, or the rest of a segment has room for it. -/
def Serves (h : Heap) (F : List Block) (need : Nat) : Prop :=
  (∃ b ∈ F, SizeClass.Finds need b.size) ∨ h.HasRoom need

section Serving

variable {h h' h₁ : Heap} {L : List Lease} {F F₁ F' : List Block} {b : Block} {p : Pointer}
  {size need : Nat}

theorem answers_allocate : Answers (allocate size) h ↔ Answers (takeBlock size) h := by
  simp only [Answers, allocate, settled]
  cases takeBlock size h with
  | ok p h₁ => exact ⟨fun _ => ⟨p, h₁, rfl⟩, fun _ => ⟨p, _, rfl⟩⟩
  | error stop h₁ =>
      constructor <;> rintro ⟨p, h₂, heq⟩
      · cases stop <;> cases heq
      · cases heq

theorem Booked.answers_iff (hk : Booked h ⟨L, F, []⟩) (hsize : sizeFor? size = some need) :
    Answers (allocate size) h ↔ Serves h F need := by
  rw [answers_allocate, Serves, ← hk.search_ne_none (k := ⟨L, F, []⟩)]
  have htaken := hk.taken size
  cases hrun : Heap.takeBlock size h with
  | ok p h₁ =>
      rw [hrun] at htaken
      obtain ⟨need', b, F', hsize', -, -, -, horigin⟩ := htaken
      rw [hsize] at hsize'
      cases hsize'
      refine ⟨fun _ => ?_, fun _ => ⟨p, h₁, hrun⟩⟩
      cases horigin with
      | filed hclass => exact Or.inl (by rw [hclass]; exact Option.some_ne_none _)
      | rest _ _ _ hroom => exact Or.inr hroom
  | error stop h₁ =>
      rw [hrun] at htaken
      match stop with
      | .refused .outOfMemory =>
          obtain ⟨F', -, -, hnone⟩ := htaken
          obtain ⟨hclass, hroom⟩ := hnone need hsize
          constructor
          · rintro ⟨p, h₂, heq⟩
            rw [hrun] at heq
            cases heq
          · rintro (hne | hroom')
            · exact absurd hclass hne
            · exact absurd hroom' hroom

theorem hasRoom_congr (hsame : h'.ground = h.ground) : h'.HasRoom need ↔ h.HasRoom need := by
  show (∃ i, h'.ground.current ≤ i ∧ i < h'.ground.count ∧
    h'.ground.top i + need ≤ h'.ground.length i) ↔ _
  rw [hsame]
  rfl

/-- The last block goes down again, and what it leaves is room for as much. -/
theorem Returned.room_of_lowered (hsound : h.ground.Sound) (hlast : h.AtFrontier b)
    (hground : h'.ground = h.ground.setTop h.current b.start) (hle : need ≤ b.size) :
    h'.topAt h'.current + need ≤ h'.lengthAt h'.current := by
  have hcurrent : h'.current = h.current := congrArg Ground.current hground
  have htop : h'.topAt h.current = b.start :=
    (congrArg (Ground.top · h.current) hground).trans (if_pos rfl)
  have hlength : h'.lengthAt h.current = h.lengthAt h.current :=
    congrArg (Ground.length · h.current) hground
  have hstop : b.start + b.size = h.topAt h.current := hlast.2
  have hbelow : h.topAt h.current ≤ h.lengthAt h.current := hsound.top_le h.current
  rw [hcurrent, htop, hlength]
  omega

theorem serves_of_room (hsound : h.ground.Sound)
    (hroom : h.topAt h.current + need ≤ h.lengthAt h.current) : Serves h F need :=
  Or.inr ⟨h.current, Nat.le_refl _, hsound.current_lt, hroom⟩

/-- What is free after a block has been given back, said of a request. -/
theorem Returned.serves_iff (hr : Returned h F b F' h') (hsound : h.ground.Sound)
    (hsound' : h'.ground.Sound) (hle : need ≤ b.size) :
    Serves h' F' need ↔ h.AtFrontier b ∨ SizeClass.Finds need b.size ∨ Serves h F need := by
  cases hr with
  | lowered hlast hfree hground =>
      have hroom := Returned.room_of_lowered hsound hlast hground hle
      exact ⟨fun _ => Or.inl hlast, fun _ => serves_of_room hsound' hroom⟩
  | filed hinner hfree hground =>
      subst hfree
      simp only [Serves, hasRoom_congr hground, hinner, List.mem_cons, exists_eq_or_imp, false_or,
        or_assoc]

end Serving

/-! ## Taking and giving back in turns -/

/-- A request is served, and its block is given back at once. -/
structure Turn (L : List Lease) (need : Nat) (h : Heap) (F : List Block) (b : Block) (mid : Heap)
    (F₁ : List Block) (h' : Heap) (F' : List Block) : Prop where
  before : Booked h ⟨L, F, []⟩
  taken : Origin h L F need b F₁ mid
  sound : mid.ground.Sound
  size_lt : b.size < 2 ^ 32
  returned : Returned mid F₁ b F' h'
  after : Booked h' ⟨L, F', []⟩

/-- The next request for a block of some size is served in such a way that giving the block back leaves
all as it was. Either the current segment has room, of which a turn never costs anything, or the search
ends at a block that is not split. -/
inductive Steady (h : Heap) (F : List Block) (need : Nat) : Prop
  | room (hroom : h.topAt h.current + need ≤ h.lengthAt h.current)
  | block {c : SizeClass} {b : Block} {others : List Block}
      (hclass : (SizeClass.ceil need).bind h.firstOccupied = some c)
      (hfiled : (Books.mk [] F []).filed c = b :: others) (hwhole : b.size < need + leastBlock)

section Turns

variable {h h' mid : Heap} {L : List Lease} {F F₁ F' : List Block} {b : Block} {need : Nat}

theorem Block.part_size (hle : need ≤ b.size) :
    need ≤ (b.part need).size ∧ (b.part need).size < need + leastBlock := by
  rw [Block.part]
  split
  · exact ⟨Nat.le_refl _, by unfold leastBlock; simp only; omega⟩
  · exact ⟨hle, by omega⟩

/-- A request gets a block that is hardly larger than it needs. -/
theorem Origin.size_bounds (ho : Origin h L F need b F₁ mid) :
    need ≤ b.size ∧ b.size < need + leastBlock := by
  cases ho with
  | filed _ _ hsize hpart =>
      rw [hpart]
      exact Block.part_size hsize
  | rest _ _ hsize =>
      unfold leastBlock
      omega

theorem Steady.serves (hs : Steady h F need) (hk : Booked h ⟨L, F, []⟩) : Serves h F need := by
  cases hs with
  | room hroom => exact serves_of_room hk.tiled.sound hroom
  | block hclass =>
      exact Or.inl (hk.search_ne_none.1 (by rw [hclass]; exact Option.some_ne_none _))

/-- A block has come to the front of its class, and no class before that one has a block. -/
theorem steady_of_filed (hk : Booked h' ⟨L, b :: F₁, []⟩) {least : SizeClass}
    (hceil : SizeClass.ceil need = some least) (hle : least ≤ SizeClass.floor b.size)
    (hempty : ∀ d, least ≤ d → d < SizeClass.floor b.size → (Books.mk L F₁ []).filed d = [])
    (hwhole : b.size < need + leastBlock) : Steady h' (b :: F₁) need := by
  have hfront : (Books.mk [] (b :: F₁) []).filed (SizeClass.floor b.size)
      = b :: (Books.mk [] F₁ []).filed (SizeClass.floor b.size) := by
    rw [filed_cons, if_pos rfl]
  refine .block ?_ hfront hwhole
  rw [hceil, Option.bind_some, firstOccupied_eq_some]
  refine ⟨hle, ?_, fun d hd hlt => ?_⟩
  · refine (hk.occupied _).2 ?_
    rw [filed_cons, if_pos rfl]
    exact List.cons_ne_nil _ _
  · refine (hk.unoccupied d).2 ?_
    rw [filed_cons, if_neg (Fin.ne_of_lt hlt).symm]
    exact hempty d hd hlt

/-- No class is passed over where the search would now meet it: neither when the block was taken whole,
since it is the one that the search had come to, nor when it was split, since then it is filed in the very
class from which the search starts. -/
theorem Origin.passed_over (ho : Origin h L F need b F₁ mid) (hk : Booked h ⟨L, F, []⟩)
    (hinner : ¬ mid.AtFrontier b) {least : SizeClass} (hceil : SizeClass.ceil need = some least) :
    ∀ d, least ≤ d → d < SizeClass.floor b.size → (Books.mk L F₁ []).filed d = [] := by
  intro d hd hlt
  cases ho with
  | rest _ hlast => exact absurd hlast hinner
  | @filed c source others hclass hfiled hsize hpart hfree =>
      by_cases hsplit : leastBlock ≤ source.size - need
      · rw [hpart, Block.part, if_pos hsplit] at hlt
        have hfloor := SizeClass.floor_le_of_ceil hceil
        exact absurd (Nat.lt_of_lt_of_le hlt hfloor) (Nat.not_lt.2 hd)
      · rw [Block.part, if_neg hsplit] at hpart
        rw [Block.rest, if_neg hsplit, List.nil_append] at hfree
        subst hpart hfree
        rw [hceil, Option.bind_some, firstOccupied_eq_some] at hclass
        obtain ⟨-, -, hbefore⟩ := hclass
        obtain ⟨-, rfl⟩ := Books.mem_filed.1 (hfiled ▸ List.mem_cons_self)
        have hnone := (hk.unoccupied d).1 (hbefore d hd hlt)
        have hsub : (Books.mk L (F.erase b) []).filed d ⊆ (Books.mk L F []).filed d :=
          List.filter_subset _ List.erase_subset
        exact List.eq_nil_of_subset_nil (hnone ▸ hsub)

/-- A turn whose block comes back in a way that it can be found makes the heap steady. -/
theorem Turn.steady_of_found (ht : Turn L need h F b mid F₁ h' F')
    (hfound : mid.AtFrontier b ∨ SizeClass.Finds need b.size) : Steady h' F' need := by
  obtain ⟨hle, hwhole⟩ := ht.taken.size_bounds
  cases ht.returned with
  | lowered hlast _ hground =>
      exact .room (Returned.room_of_lowered ht.sound hlast hground hle)
  | filed hinner hfree =>
      subst hfree
      obtain ⟨least, hceil, hfloor⟩ := hfound.resolve_left hinner
      exact steady_of_filed ht.after hceil hfloor
        (ht.taken.passed_over ht.before hinner hceil) hwhole

/-- A turn leaves a steady heap steady. -/
theorem Turn.steady (ht : Turn L need h F b mid F₁ h' F') (hs : Steady h F need) :
    Steady h' F' need := by
  cases ht.returned with
  | lowered hlast => exact ht.steady_of_found (Or.inl hlast)
  | filed hinner _ hground =>
      cases ht.taken with
      | rest _ hlast => exact absurd hlast hinner
      | @filed c source others hclass hfiled _ hpart _ hground₁ =>
          cases hs with
          | room hroom =>
              refine .room ?_
              have hsame : h'.ground = h.ground := hground.trans hground₁
              rw [show h'.topAt = h.topAt from congrArg Ground.top hsame,
                show h'.lengthAt = h.lengthAt from congrArg Ground.length hsame,
                show h'.current = h.current from congrArg Ground.current hsame]
              exact hroom
          | @block c' first others' hclass' hfiled' hwhole =>
              obtain ⟨least, hceil, hfirst⟩ := Option.bind_eq_some_iff.1 hclass'
              obtain rfl : c = c' := Option.some.inj (hclass.symm.trans hclass')
              obtain ⟨rfl, -⟩ := List.cons.inj (hfiled.symm.trans hfiled')
              -- The block that the search comes to is taken as a whole.
              have hb : b = source := by
                rw [hpart, Block.part, if_neg (by unfold leastBlock at *; omega)]
              obtain ⟨-, hfloor⟩ := Books.mem_filed.1 (hfiled ▸ List.mem_cons_self)
              refine ht.steady_of_found (Or.inr ⟨least, hceil, ?_⟩)
              rw [hb, hfloor]
              exact (firstOccupied_eq_some.1 hfirst).1

end Turns

/-! ## Calls -/

/-- A client allocates and frees at once. -/
def churn (size : Nat) : HeapAction Unit := do
  let p ← allocate size
  free p size

/-- A client allocates and frees over and over. -/
def churns (size : Nat) : Nat → HeapAction Unit
  | 0 => pure ()
  | n + 1 => do
      churn size
      churns size n

section Calls

variable {h mid : Heap} {L : List Lease} {F : List Block} {l : Lease} {p : Pointer}
  {size need : Nat}

theorem Origin.of_ground {b : Block} {F' : List Block} {h' h'' : Heap}
    (ho : Origin h L F need b F' h') (hsame : h''.ground = h'.ground) :
    Origin h L F need b F' h'' := by
  cases ho with
  | filed hclass hfiled hsize hpart hfree hground =>
      exact .filed hclass hfiled hsize hpart hfree (hsame.trans hground)
  | rest hclass hlast hsize hroom =>
      refine .rest hclass ?_ hsize hroom
      show b.segment = h''.ground.current ∧ b.start + b.size = h''.ground.top h''.ground.current
      rw [hsame]
      exact hlast

theorem Booked.allocated (hk : Booked h ⟨L, F, []⟩) (hused : h.used = (L.map Lease.size).sum)
    (hrun : Heap.allocate size h = .ok p mid) :
    ∃ need b F₁, sizeFor? size = some need ∧ p = b.pointer ∧
      Booked mid ⟨⟨b, size, nothingKnown⟩ :: L, F₁, []⟩ ∧
      mid.used = size + (L.map Lease.size).sum ∧ Origin h L F need b F₁ mid := by
  have htaken := hk.taken size
  rw [Heap.allocate, settled] at hrun
  cases htake : Heap.takeBlock size h with
  | error stop h₁ =>
      rw [htake] at hrun
      cases stop <;> cases hrun
  | ok q h₁ =>
      rw [htake] at hrun htaken
      obtain ⟨need, b, F₁, hsize, rfl, hk₁, hu₁, ho⟩ := htaken
      cases hrun
      have hk₂ : Booked { h₁ with used := (h₁.used + size) % 2 ^ 64 } _ :=
        hk₁.of_same rfl rfl rfl rfl rfl rfl
      obtain ⟨-, -, -, -, -, -, hsame⟩ :=
        askForGrowth_same { h₁ with used := (h₁.used + size) % 2 ^ 64 }
      refine ⟨need, b, F₁, hsize, rfl, hk₂.askForGrowth, ?_, ho.of_ground (ground_askForGrowth _)⟩
      have hsum := hk₁.sum_le
      simp only [List.map_cons, List.sum_cons] at hsum
      unfold regionLimit at hsum
      rw [hsame, hu₁.used, hused, Nat.mod_eq_of_lt (by omega), Nat.add_comm]

/-- An allocation that has been answered can be freed, and the two calls make a turn. -/
theorem Booked.turn (hk : Booked h ⟨L, F, []⟩) (hused : h.used = (L.map Lease.size).sum)
    (hrun : Heap.allocate size h = .ok p mid) :
    ∃ need b F₁ h' F', sizeFor? size = some need ∧ mid.blockOf? p = some b ∧
      Heap.free p size mid = .ok () h' ∧ h'.used = (L.map Lease.size).sum ∧
      Turn L need h F b mid F₁ h' F' := by
  obtain ⟨need, b, F₁, hsize, rfl, hk₁, hused₁, ho⟩ := hk.allocated hused hrun
  obtain ⟨-, hstop, -⟩ := hk₁.bounds (hk₁.mem_of_lease List.mem_cons_self)
  obtain ⟨F', h', hfree, hk', hused', hr⟩ := hk₁.free hused₁
  exact ⟨need, b, F₁, h', F', hsize, hk₁.blockOf? List.mem_cons_self, hfree, hused',
    hk, ho, hk₁.tiled.sound, Nat.lt_of_le_of_lt (Nat.le_add_left _ _) hstop, hr, hk'⟩

theorem churns_succ {h' : Heap} (hallocate : Heap.allocate size h = .ok p mid)
    (hfree : Heap.free p size mid = .ok () h') (n : Nat) :
    Heap.churns size (n + 1) h = Heap.churns size n h' := by
  have hchurn : churn size h = .ok () h' := (Action.bind_ok hallocate).trans hfree
  rw [Heap.churns, Action.bind_ok hchurn]

theorem Steady.churns (hs : Steady h F need) (hk : Booked h ⟨L, F, []⟩)
    (hused : h.used = (L.map Lease.size).sum) (hsize : sizeFor? size = some need) (n : Nat) :
    Answers (Heap.churns size n) h := by
  induction n generalizing h F with
  | zero => exact ⟨(), h, rfl⟩
  | succ n ih =>
      obtain ⟨p, mid, hallocate⟩ := (hk.answers_iff hsize).2 (hs.serves hk)
      obtain ⟨need', b, F₁, h', F', hsize', -, hfree, hused', ht⟩ := hk.turn hused hallocate
      rw [hsize] at hsize'
      cases hsize'
      rw [Answers, churns_succ hallocate hfree]
      exact ih (ht.steady hs) ht.after hused'

/-- What was asked for and its header lie in the block, so that the block is one for as much. -/
theorem Booked.sizeFor?_of_mem (hk : Booked h ⟨L, F, []⟩) (hl : l ∈ L) :
    ∃ need, sizeFor? l.size = some need ∧ need ≤ l.block.size ∧ l.block.size < 2 ^ 32 := by
  have hmem := hk.mem_of_lease (k := ⟨L, F, []⟩) hl
  obtain ⟨-, hstop, hleast⟩ := hk.bounds hmem
  have hmod := (hk.fits hmem).size_mod
  have hroom := (hk.held l hl).room
  have hlt := padded_lt (l.size + headerSize)
  have hgrid := padded_mod (l.size + headerSize)
  unfold headerSize at hroom hlt hgrid
  refine ⟨max leastBlock (padded (l.size + headerSize)), ?_, ?_, by omega⟩
  · rw [sizeFor?, if_pos (by omega), if_pos (by unfold leastBlock headerSize at *; omega)]
  · unfold leastBlock headerSize at *
    omega

end Calls

/-! ## Every state that is reached -/

/-- What becomes of memory that clients give back. -/
structure Tenancy.Reuses (t : Tenancy) : Prop where
  /-- An allocation can be given back, and then a request for as much is answered exactly when its block
  was the last one below the top, or lies where the request looks, or the request would have been
  answered before. -/
  freed : ∀ a ∈ t.live, ∃ b need h', t.heap.blockOf? a.pointer = some b ∧
    sizeFor? a.size = some need ∧ free a.pointer a.size t.heap = .ok () h' ∧
    (Answers (allocate a.size) h' ↔
      t.heap.AtFrontier b ∨ SizeClass.Finds need b.size ∨ Answers (allocate a.size) t.heap)
  /-- When the block of one turn comes back in one of the first two ways, turns go on for ever. -/
  turns : ∀ size p mid, allocate size t.heap = .ok p mid →
    ∃ b need, mid.blockOf? p = some b ∧ sizeFor? size = some need ∧
      (mid.AtFrontier b ∨ SizeClass.Finds need b.size → ∀ n, Answers (churns size n) t.heap)
  /-- It always does when the block for a size is the least one of its class. -/
  least : ∀ size need, sizeFor? size = some need → (SizeClass.floor need).lower = need →
    (∀ a ∈ t.live, a.size = size →
      ∃ h', free a.pointer a.size t.heap = .ok () h' ∧ Answers (allocate size) h') ∧
    (Answers (allocate size) t.heap → ∀ n, Answers (churns size n) t.heap)

section Reached

variable {t : Tenancy}

theorem Tenancy.Kept.free_allocate (ht : t.Kept) {a : Allocation} (ha : a ∈ t.live) :
    ∃ b need h', t.heap.blockOf? a.pointer = some b ∧ sizeFor? a.size = some need ∧
      need ≤ b.size ∧ b.size < 2 ^ 32 ∧ Heap.free a.pointer a.size t.heap = .ok () h' ∧
      (Answers (Heap.allocate a.size) h' ↔ t.heap.AtFrontier b ∨ SizeClass.Finds need b.size ∨
        Answers (Heap.allocate a.size) t.heap) := by
  obtain ⟨L, hk, hlive⟩ := ht
  rw [hlive] at ha
  obtain ⟨l, hl, rfl⟩ := List.mem_map.1 ha
  obtain ⟨before, after, rfl⟩ := List.append_of_mem hl
  obtain ⟨⟨F, hbooked⟩, hused⟩ := hk.perm List.perm_middle
  have hmem : l ∈ l :: (before ++ after) := List.mem_cons_self
  obtain ⟨need, hsize, hle, hlt⟩ := hbooked.sizeFor?_of_mem hmem
  obtain ⟨F', h', hfree, hk', -, hr⟩ := hbooked.free hused
  refine ⟨l.block, need, h', hbooked.blockOf? hmem, hsize, hle, hlt, hfree, ?_⟩
  show Answers (Heap.allocate l.size) h' ↔ _ ∨ _ ∨ Answers (Heap.allocate l.size) t.heap
  rw [hk'.answers_iff hsize, hbooked.answers_iff hsize]
  exact hr.serves_iff hbooked.tiled.sound hk'.tiled.sound hle

theorem Tenancy.Kept.churns (ht : t.Kept) {size : Nat} {p : Pointer} {mid : Heap}
    (hallocate : Heap.allocate size t.heap = .ok p mid) :
    ∃ b need, mid.blockOf? p = some b ∧ sizeFor? size = some need ∧ need ≤ b.size ∧
      b.size < 2 ^ 32 ∧
      (mid.AtFrontier b ∨ SizeClass.Finds need b.size →
        ∀ n, Answers (Heap.churns size n) t.heap) := by
  obtain ⟨L, ⟨⟨F, hbooked⟩, hused⟩, -⟩ := ht
  obtain ⟨need, b, F₁, h', F', hsize, hblock, hfree, hused', hturn⟩ :=
    hbooked.turn hused hallocate
  refine ⟨b, need, hblock, hsize, hturn.taken.size_bounds.1, hturn.size_lt, fun hfound n => ?_⟩
  cases n with
  | zero => exact ⟨(), t.heap, rfl⟩
  | succ n =>
      rw [Answers, churns_succ hallocate hfree]
      exact (hturn.steady_of_found hfound).churns hturn.after hused' hsize n

theorem Tenancy.Kept.reuses (ht : t.Kept) : t.Reuses where
  freed a ha := by
    obtain ⟨b, need, h', hblock, hsize, -, -, hfree, hiff⟩ := ht.free_allocate ha
    exact ⟨b, need, h', hblock, hsize, hfree, hiff⟩
  turns size p mid hallocate := by
    obtain ⟨b, need, hblock, hsize, -, -, hchurns⟩ := ht.churns hallocate
    exact ⟨b, need, hblock, hsize, hchurns⟩
  least size need hsize hlower := by
    have hneed := (sizeFor?_spec hsize).1
    refine ⟨fun a ha heq => ?_, ?_⟩
    · subst heq
      obtain ⟨b, need', h', -, hsize', hle, hlt, hfree, hiff⟩ := ht.free_allocate ha
      rw [hsize] at hsize'
      cases hsize'
      exact ⟨h', hfree, hiff.2 (Or.inr (Or.inl (SizeClass.finds_of_lower hneed hlower hle hlt)))⟩
    · rintro ⟨p, mid, hallocate⟩
      obtain ⟨b, need', -, hsize', hle, hlt, hchurns⟩ := ht.churns hallocate
      rw [hsize] at hsize'
      cases hsize'
      exact hchurns (Or.inr (SizeClass.finds_of_lower hneed hlower hle hlt))

end Reached

/-- Whatever the settings allow and whatever clients and the worker have called. -/
theorem runs_reuse {supply : Supply} {s : Settings} (hs : s.validate = .ok ())
    (hgranted : supply s.regionSize = .granted) (requests : List Request) :
    ∃ h t, create supply s.regionSize s.maxRegions = .ok h ∧
      Tenancy.run ⟨h, []⟩ requests = .ok t ∧
      t.Reuses := by
  obtain ⟨h, hcreate, hk⟩ := exists_create hs hgranted
  have hkept : Tenancy.Kept ⟨h, []⟩ := ⟨[], hk, rfl⟩
  obtain ⟨t, hrun, ht⟩ := hkept.run requests
  exact ⟨h, t, hcreate, hrun, ht.reuses⟩

/-- A request is answered with a region, and a block is given back between two others. -/
theorem runs_reuse_standard :
    let requests : List Request := [.allocate 64, .allocate 70000, .allocate 40, .takeRequest,
      .commit ⟨1, 262144, .blank⟩, .free 1, .allocate 9000]
    Settings.standard.validate = .ok () ∧ Supply.ample Settings.standard.regionSize = .granted ∧
      ∃ h t, create .ample Settings.standard.regionSize Settings.standard.maxRegions = .ok h ∧
        Tenancy.run ⟨h, []⟩ requests = .ok t ∧
        t.live.map Allocation.size = [9000, 40, 64] ∧ t.heap.regionCount = 2 ∧ t.Reuses := by
  intro requests
  have hcheck : ((create .ample Settings.standard.regionSize
      Settings.standard.maxRegions).toOption.bind fun h =>
      (Tenancy.run ⟨h, []⟩ requests).toOption.map fun t =>
        (t.live.map Allocation.size, t.heap.regionCount)) = some ([9000, 40, 64], 2) := by
    decide +kernel
  have hgranted : Supply.ample Settings.standard.regionSize = .granted := rfl
  obtain ⟨h, t, hcreate, hrun, hreuses⟩ := runs_reuse (s := Settings.standard) rfl hgranted requests
  simp only [hcreate, hrun, Except.toOption, Option.bind_some, Option.map_some, Option.some.injEq,
    Prod.mk.injEq] at hcheck
  exact ⟨rfl, hgranted, h, t, hcreate, hrun, hcheck.1, hcheck.2, hreuses⟩

/-- The state that calls lead to from a new heap, for whose first region there is memory. -/
def reached (s : Settings) (requests : List Request) : Option Tenancy :=
  (create .ample s.regionSize s.maxRegions).toOption.bind fun h =>
    (Tenancy.run ⟨h, []⟩ requests).toOption

/-- Settings for one region of a size. -/
def oneRegion (size : Nat) : Settings :=
  { Settings.standard with regionSize := size, maxRegions := 1 }

/-- In a region of 128 bytes, a block of 72 bytes and one behind it: the first one is given back, and a
request for as much is refused. In a region of 256 bytes, a free block of 112 bytes is cut down to 72 by
one turn, and the next turn is refused. -/
theorem freed_not_found :
    ((oneRegion 128).validate = .ok () ∧
      ∃ t, reached (oneRegion 128) [.allocate 64, .allocate 40] = some t ∧ ∃ a ∈ t.live,
        Answers (free a.pointer a.size) t.heap ∧
          Exhausts (do free a.pointer a.size; allocate a.size) t.heap) ∧
    (oneRegion 256).validate = .ok () ∧
      ∃ t, reached (oneRegion 256) [.allocate 104, .allocate 136, .free 1] = some t ∧
        Answers (churn 64) t.heap ∧ Exhausts (do churn 64; churn 64) t.heap := by
  refine ⟨⟨rfl, ?_⟩, rfl, ?_⟩
  · have hrun : (reached (oneRegion 128) [.allocate 64, .allocate 40]).any (fun t =>
        decide (∃ a ∈ t.live, Answers (free a.pointer a.size) t.heap ∧
          Exhausts (do free a.pointer a.size; allocate a.size) t.heap)) = true := by
      decide +kernel
    obtain ⟨t, ht, hp⟩ := (Option.any_eq_true _ _).1 hrun
    exact ⟨t, ht, of_decide_eq_true hp⟩
  · have hrun : (reached (oneRegion 256) [.allocate 104, .allocate 136, .free 1]).any (fun t =>
        decide (Answers (churn 64) t.heap ∧ Exhausts (do churn 64; churn 64) t.heap)) = true := by
      decide +kernel
    obtain ⟨t, ht, hp⟩ := (Option.any_eq_true _ _).1 hrun
    exact ⟨t, ht, of_decide_eq_true hp⟩

end Heap

end BlockHost
