import BlockHost.Heap.Requests
import BlockHost.Proofs.Actions

/-!
# What an access to the heap does

A heap answers three questions about each of its segments: what is in its memory, how long it
is, and how far it has been used. Every access of the heap to a segment changes one of these
answers, for one segment, and nothing else. The laws here say so in the form in which the heap's
operations use them: an access that lies inside its segment answers, and leaves the heap with
one answer changed.
-/

namespace BlockHost

namespace Memory

/-- The number that a word of the given width stands for. -/
def number (m : Memory) (start width : Nat) : Nat :=
  Bytes.toNat (m.load start width)

theorem number_congr {m m' : Memory} {start width : Nat}
    (h : ∀ x, start ≤ x → x < start + width → m'.byteAt x = m.byteAt x) :
    m'.number start width = m.number start width := by
  have hload : m'.load start width = m.load start width := by
    refine List.map_congr_left fun x hx => ?_
    rw [List.mem_range'_1] at hx
    exact h x hx.1 hx.2
  rw [number, number, hload]

theorem number_store (m : Memory) (start width n : Nat) (hn : n < 256 ^ width) :
    (m.store start (Bytes.ofNat width n)).number start width = n := by
  have hload := load_store m start (Bytes.ofNat width n)
  rw [Bytes.length_ofNat] at hload
  rw [number, hload, Bytes.toNat_ofNat, Nat.mod_eq_of_lt hn]

theorem byteAt_store_of_outside {m : Memory} {start : Nat} {bs : Bytes} {x : Nat}
    (h : x < start ∨ start + bs.length ≤ x) : (m.store start bs).byteAt x = m.byteAt x := by
  rw [byteAt_store]
  rcases h with hlt | hge
  · rw [if_neg (by omega)]
  · rw [if_pos (by omega), List.getD_eq_getElem?_getD, List.getElem?_eq_none (by omega)]
    rfl

theorem number_store_of_disjoint {m : Memory} {start width other : Nat} {bs : Bytes}
    (h : other + width ≤ start ∨ start + bs.length ≤ other) :
    (m.store start bs).number other width = m.number other width :=
  number_congr fun _ _ _ => byteAt_store_of_outside (by omega)

theorem byteAt_copy_of_outside {m source : Memory} {dest start len x : Nat}
    (h : x < dest ∨ dest + len ≤ x) : (m.copy dest source start len).byteAt x = m.byteAt x := by
  rw [byteAt_copy, if_neg (by omega)]

end Memory

namespace Heap

/-! ## The three answers -/

/-- The memory of a segment. -/
def memoryAt (h : Heap) (i : Nat) : Memory :=
  (h.segments[i]?).elim .blank fun s => s.region.memory

/-- The length of a segment. -/
def lengthAt (h : Heap) (i : Nat) : Nat :=
  (h.segments[i]?).elim 0 fun s => s.region.size

/-- How far a segment has been used. -/
def topAt (h : Heap) (i : Nat) : Nat :=
  (h.segments[i]?).elim 0 Segment.top

theorem answers_of_getElem? {h : Heap} {i : Nat} {s : Segment} (hs : h.segments[i]? = some s) :
    s.region.memory = h.memoryAt i ∧ s.region.size = h.lengthAt i ∧ s.top = h.topAt i := by
  simp [memoryAt, lengthAt, topAt, hs]

theorem modify_eq_set {i : Nat} {ss : List Segment} (hi : i < ss.length) (f : Segment → Segment) :
    ss.modify i f = ss.set i (f ss[i]) := by
  refine List.ext_getElem (by simp) fun j h₁ h₂ => ?_
  rw [List.getElem_modify, List.getElem_set]
  split
  · next hij =>
      subst hij
      rfl
  · rfl

/-- The heap with another memory in a segment. -/
def withMemory (h : Heap) (i : Nat) (m : Memory) : Heap :=
  { h with
    segments := h.segments.modify i fun s => { s with region := { s.region with memory := m } } }

/-- The heap with another top of a segment. -/
def withTop (h : Heap) (i top : Nat) : Heap :=
  { h with segments := h.segments.modify i fun s => { s with top } }

section Answers

variable (h : Heap) (i j top : Nat) (m : Memory)

@[simp] theorem memoryAt_withTop : (h.withTop i top).memoryAt j = h.memoryAt j := by
  simp only [memoryAt, withTop, List.getElem?_modify]
  cases h.segments[j]? <;> by_cases hij : i = j <;> simp [hij]

@[simp] theorem lengthAt_withTop : (h.withTop i top).lengthAt j = h.lengthAt j := by
  simp only [lengthAt, withTop, List.getElem?_modify]
  cases h.segments[j]? <;> by_cases hij : i = j <;> simp [hij]

@[simp] theorem lengthAt_withMemory : (h.withMemory i m).lengthAt j = h.lengthAt j := by
  simp only [lengthAt, withMemory, List.getElem?_modify]
  cases h.segments[j]? <;> by_cases hij : i = j <;> simp [hij]

@[simp] theorem topAt_withMemory : (h.withMemory i m).topAt j = h.topAt j := by
  simp only [topAt, withMemory, List.getElem?_modify]
  cases h.segments[j]? <;> by_cases hij : i = j <;> simp [hij]

theorem memoryAt_withMemory (hi : i < h.segments.length) :
    (h.withMemory i m).memoryAt j = if j = i then m else h.memoryAt j := by
  simp only [memoryAt, withMemory, List.getElem?_modify]
  by_cases hij : j = i
  · subst hij
    simp [hi]
  · rw [if_neg hij]
    cases h.segments[j]? <;> simp [Ne.symm hij]

theorem topAt_withTop (hi : i < h.segments.length) :
    (h.withTop i top).topAt j = if j = i then top else h.topAt j := by
  simp only [topAt, withTop, List.getElem?_modify]
  by_cases hij : j = i
  · subst hij
    simp [hi]
  · rw [if_neg hij]
    cases h.segments[j]? <;> simp [Ne.symm hij]

@[simp] theorem length_segments_withTop :
    (h.withTop i top).segments.length = h.segments.length := by
  simp [withTop]

@[simp] theorem length_segments_withMemory :
    (h.withMemory i m).segments.length = h.segments.length := by
  simp [withMemory]

theorem withMemory_withMemory (m' : Memory) :
    (h.withMemory i m).withMemory i m' = h.withMemory i m' := by
  simp only [withMemory, List.modify_modify_eq]
  rfl

end Answers

/-! ## The accesses -/

section Accesses

variable {h : Heap} {i start : Nat}

theorem segment_ok (hi : i < h.segments.length) : segment i h = .ok h.segments[i] h := by
  simp only [segment, List.getElem?_eq_getElem hi]

/-- Every position below the number of segments has a segment, and it gives the three answers. -/
theorem answers_of_lt (hi : i < h.segments.length) :
    h.segments[i].region.memory = h.memoryAt i ∧ h.segments[i].region.size = h.lengthAt i ∧
      h.segments[i].top = h.topAt i :=
  answers_of_getElem? (List.getElem?_eq_getElem hi)

theorem setMemory_ok (hi : i < h.segments.length) (m : Memory) :
    setMemory i m h = .ok () (h.withMemory i m) := by
  rw [setMemory, Action.bind_ok (segment_ok hi), withMemory, modify_eq_set hi]
  rfl

theorem setTop_ok (hi : i < h.segments.length) (top : Nat) :
    setTop i top h = .ok () (h.withTop i top) := by
  rw [setTop, Action.bind_ok (segment_ok hi), withTop, modify_eq_set hi]
  rfl

theorem checkRange_ok {s : Segment} {len : Nat} (hs : start + len ≤ s.region.size) :
    checkRange s start len h = .ok () h := by
  rw [checkRange, if_pos hs]
  rfl

theorem load_ok {len : Nat} (hi : i < h.segments.length) (hlen : start + len ≤ h.lengthAt i) :
    load i start len h = .ok ((h.memoryAt i).load start len) h := by
  obtain ⟨hm, hl, -⟩ := answers_of_lt hi
  rw [load, Action.bind_ok (segment_ok hi), Action.bind_ok (checkRange_ok (by omega)), hm]
  rfl

theorem store_ok {bs : Bytes} (hi : i < h.segments.length)
    (hlen : start + bs.length ≤ h.lengthAt i) :
    store i start bs h = .ok () (h.withMemory i ((h.memoryAt i).store start bs)) := by
  obtain ⟨hm, hl, -⟩ := answers_of_lt hi
  rw [store, Action.bind_ok (segment_ok hi), Action.bind_ok (checkRange_ok (by omega)), hm]
  exact setMemory_ok hi _

end Accesses

end Heap

end BlockHost
