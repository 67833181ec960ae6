import BlockHost.Atom.Cursor
import BlockHost.Proofs.ReadingBack

/-!
# Cursors and lists of children

A cursor answers with the children of its atom in their order, each once, and with nothing from
then on (`Cursor.answers_start`). For this each of its steps must find the first of what is
found from where it stands (`Cursor.steps_step`). In a body that is read from the left this is
so by the definition of reading. In a vector and in a literal a cursor computes the place of the
next child from its index; there the children that are found one behind the other are those
whose places are computed (`Atom.getElem?_children_vector`, `Atom.getElem?_literalProperties`).
-/

namespace BlockHost

namespace Shape

/-- The elements that are cut off one after the other are those whose places are computed. -/
theorem getElem?_cut (shape : Shape) (position : Nat) (bs : Bytes) (i : Nat) :
    (shape.cut position bs)[i]? =
      if 0 < shape.size ∧ (i + 1) * shape.size ≤ bs.length then
        some (.index (position + i),
          Atom.ofBody shape.type ((bs.drop (i * shape.size)).take shape.size))
      else none := by
  induction i generalizing position bs with
  | zero =>
      rw [cut, Nat.zero_add, Nat.one_mul, Nat.zero_mul]
      split <;> rfl
  | succ i ih =>
      rw [cut]
      split
      · next h =>
        rw [List.getElem?_cons_succ, ih, List.length_drop, List.drop_drop]
        have hplace : shape.size + i * shape.size = (i + 1) * shape.size := by
          rw [Nat.add_mul, Nat.one_mul, Nat.add_comm]
        have hnext : (i + 1 + 1) * shape.size = (i + 1) * shape.size + shape.size := by
          rw [Nat.add_mul (i + 1), Nat.one_mul]
        have hsame : (0 < shape.size ∧ (i + 1) * shape.size ≤ bs.length - shape.size) ↔
            (0 < shape.size ∧ (i + 1 + 1) * shape.size ≤ bs.length) := by
          rw [hnext]
          omega
        rw [hplace, Nat.add_right_comm, Nat.add_assoc position]
        exact ite_congr (propext hsame) (fun _ => rfl) (fun _ => rfl)
      · next h =>
        rw [if_neg, List.getElem?_nil]
        rintro ⟨hpos, hle⟩
        have hone : 1 * shape.size ≤ (i + 1 + 1) * shape.size := Nat.mul_le_mul_right _ (by omega)
        exact h ⟨hpos, by omega⟩

theorem getElem?_cut_drop (shape : Shape) (body : Bytes) (i : Nat) :
    (shape.cut 0 (body.drop headerSize))[i]? =
      (shape.element? body i).map fun element => (.index i, element) := by
  rw [getElem?_cut, element?, count, Bytes.slice?, List.length_drop, List.drop_drop, Nat.zero_add]
  by_cases hpos : 0 < shape.size
  · have hcount : i < (body.length - headerSize) / shape.size ↔
        (i + 1) * shape.size ≤ body.length - headerSize := Nat.le_div_iff_mul_le hpos
    by_cases hin : (i + 1) * shape.size ≤ body.length - headerSize
    · have hlength : ((body.drop (headerSize + i * shape.size)).take shape.size).length
          = shape.size := by
        rw [Nat.add_mul, Nat.one_mul] at hin
        rw [List.length_take, List.length_drop]
        omega
      rw [if_pos ⟨hpos, hin⟩, if_pos (hcount.2 hin), if_pos hlength]
      rfl
    · rw [if_neg fun h => hin h.2, if_neg (mt hcount.1 hin)]
      rfl
  · rw [if_neg fun h => hpos h.1, Nat.eq_zero_of_not_pos hpos, Nat.div_zero,
      if_neg (Nat.not_lt_zero i)]
    rfl

end Shape

namespace Atom

theorem getElem?_children_vector {s : Schema} {a : Atom} (hkind : s.kindOf a.type = .vector)
    (i : Nat) :
    (a.children s)[i]? = (a.child? s i).map fun child => (.index i, child) := by
  rw [children, child?, hkind]
  cases Shape.parse a.body with
  | none => rfl
  | some shape => exact shape.getElem?_cut_drop a.body i

/-- A body that is too short for a literal's first word is too short for its second, whatever
numbers the two names have. -/
theorem literalProperty?_none {s : Schema} {a : Atom}
    (h : a.literalProperty? s (s.id .literalDatatype) = none) (key : UInt32) :
    a.literalProperty? s key = none := by
  rw [literalProperty?, if_pos rfl, Option.map_eq_none_iff, Bytes.slice?] at h
  have hshort : a.body.length < 4 := by
    refine Nat.lt_of_not_le fun hlong => ?_
    rw [if_pos (by rw [List.length_take, List.length_drop]; omega)] at h
    cases h
  have hno : ∀ start, a.body.slice? start 4 = none := by
    intro start
    rw [Bytes.slice?, if_neg]
    rw [List.length_take, List.length_drop]
    omega
  rw [literalProperty?, hno, hno]
  split
  · rfl
  · split <;> rfl

theorem getElem?_literalProperties (s : Schema) (a : Atom) (i : Nat) :
    (a.literalProperties s)[i]? =
      ([s.id .literalDatatype, s.id .literalLang][i]?).bind fun key =>
        (a.literalProperty? s key).map fun child => (.property key 0, child) := by
  rw [literalProperties]
  cases hdatatype : a.literalProperty? s (s.id .literalDatatype) with
  | none =>
      cases h : [s.id .literalDatatype, s.id .literalLang][i]? with
      | none => rfl
      | some key =>
          rw [Option.bind_some, literalProperty?_none hdatatype key]
          rfl
  | some datatype =>
      match i with
      | 0 =>
          simp only [List.getElem?_cons_zero, Option.bind_some, hdatatype]
          rfl
      | 1 =>
          simp only [List.getElem?_cons_succ, List.getElem?_cons_zero, Option.bind_some]
          cases a.literalProperty? s (s.id .literalLang) <;> rfl
      | i + 2 =>
          cases a.literalProperty? s (s.id .literalLang) <;> rfl

end Atom

namespace Cursor

theorem answers_done (s : Schema) (a : Atom) {c : Cursor} (hc : c.done = true) (n : Nat) :
    c.answers s a n = List.replicate n none := by
  induction n with
  | zero => rfl
  | succ n ih =>
      rw [answers, next, if_pos hc, List.replicate_succ, ← ih]

/-- What is found from where a cursor stands: in a body that is read from the left by its
position, and in any other atom by its index. -/
def found (s : Schema) (a : Atom) (c : Cursor) : List (Key × Atom) :=
  match s.kindOf a.type with
  | .tuple => Layout.tuple.parse c.index (a.body.drop c.position)
  | .object => Layout.object.parse c.index (a.body.drop c.position)
  | .sequence => Layout.sequence.parse c.index (a.body.drop c.position)
  | _ => (a.children s).drop c.index

/-- A step finds the first of what is found from where the cursor stands, and stands behind it
then. -/
def Steps (step : Option ((Key × Atom) × Cursor)) (found : Cursor → List (Key × Atom))
    (here : List (Key × Atom)) : Prop :=
  match step with
  | none => here = []
  | some (child, c) => c.done = false ∧ here = child :: found c

theorem steps_stepIn (l : Layout) (body : Bytes) {c : Cursor} (hc : c.done = false) :
    Steps (c.stepIn l body) (fun c => l.parse c.index (body.drop c.position))
      (l.parse c.index (body.drop c.position)) := by
  rw [Layout.parse_eq, stepIn]
  cases l.head? c.index (body.drop c.position) with
  | none => rfl
  | some child =>
      refine ⟨hc, ?_⟩
      simp only [List.drop_drop]

theorem steps_index (children : List (Key × Atom)) {c : Cursor} (hc : c.done = false) :
    Steps (children[c.index]?.map fun child => (child, { c with index := c.index + 1 }))
      (fun c => children.drop c.index) (children.drop c.index) := by
  cases h : children[c.index]? with
  | none => exact List.drop_eq_nil_iff.2 (List.getElem?_eq_none_iff.1 h)
  | some child =>
      obtain ⟨hlt, rfl⟩ := List.getElem?_eq_some_iff.1 h
      exact ⟨hc, List.drop_eq_getElem_cons hlt⟩

theorem steps_step (s : Schema) (a : Atom) {c : Cursor} (hc : c.done = false) :
    Steps (c.step s a) (found s a) (found s a c) := by
  have hindex := steps_index (a.children s) hc
  unfold step found
  cases hkind : s.kindOf a.type with
  | tuple => exact steps_stepIn .tuple a.body hc
  | object => exact steps_stepIn .object a.body hc
  | sequence => exact steps_stepIn .sequence a.body hc
  | vector =>
      rw [Atom.getElem?_children_vector hkind, Option.map_map] at hindex
      exact hindex
  | literal =>
      have hchildren : a.children s = a.literalProperties s := by rw [Atom.children, hkind]
      have hproperty : ∀ key, a.property? s key = a.literalProperty? s key := by
        intro key
        rw [Atom.property?, hkind]
      rw [hchildren, Atom.getElem?_literalProperties] at hindex
      simp only [hproperty, hchildren]
      cases hkey : [s.id .literalDatatype, s.id .literalLang][c.index]? with
      | none =>
          rw [hkey] at hindex
          exact hindex
      | some key =>
          rw [hkey, Option.bind_some, Option.map_map] at hindex
          rw [Option.bind_eq_bind, Option.bind_some]
          cases hchild : a.literalProperty? s key with
          | none =>
              rw [hchild] at hindex
              exact hindex
          | some child =>
              rw [hchild] at hindex
              exact hindex
  | _ =>
      have hchildren : a.children s = [] := by rw [Atom.children, hkind]
      rw [hchildren]
      exact List.drop_nil

theorem answers_eq (s : Schema) (a : Atom) (n : Nat) {c : Cursor} (hc : c.done = false) :
    c.answers s a n = (List.range n).map fun i => (found s a c)[i]? := by
  induction n generalizing c with
  | zero => rfl
  | succ n ih =>
      have hsteps := steps_step s a hc
      rw [answers, next, if_neg (by rw [hc]; exact Bool.false_ne_true), List.range_succ_eq_map,
        List.map_cons, List.map_map]
      cases h : c.step s a with
      | none =>
          rw [h] at hsteps
          have hnothing : found s a c = [] := hsteps
          simp only [hnothing]
          rw [answers_done s a rfl]
          have hrest : (List.range n).map (fun _ => (none : Option (Key × Atom)))
              = List.replicate n none := by
            rw [List.map_const', List.length_range]
          exact congrArg _ hrest.symm
      | some stepped =>
          obtain ⟨child, behind⟩ := stepped
          rw [h] at hsteps
          obtain ⟨hbehind, hfound⟩ :
              behind.done = false ∧ found s a c = child :: found s a behind :=
            hsteps
          simp only
          rw [ih hbehind, hfound]
          rfl

theorem found_start (s : Schema) (a : Atom) : found s a (start s a) = a.children s := by
  unfold found start Atom.children
  cases s.kindOf a.type <;> rfl

/-- A cursor answers with the children of its atom in their order, each once, and with nothing
from then on. -/
theorem answers_start (s : Schema) (a : Atom) (n : Nat) :
    (start s a).answers s a n = (List.range n).map fun i => (a.children s)[i]? := by
  rw [answers_eq s a n rfl, found_start]

end Cursor

end BlockHost
