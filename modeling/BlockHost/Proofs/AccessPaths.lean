import BlockHost.Proofs.Iteration

/-!
# Ways to the children of an atom

There are four ways to what is inside an atom: a cursor that asks for one child after the other, the
number of children, a position, and a key. Some of them are separate code. The elements of a vector are
found by computing their places, and the properties of an object by a search. A literal has no children
in its body at all, and shows its first two words as if they were properties. None of what is read can
be trusted: bodies end early, the last element of a vector may be there in part, and its elements may
have no size.

All the ways lead to one list of items (`access_paths_agree`). The list is what the cursor answers, and
the others agree with it.
-/

namespace BlockHost

/-- A search finds what the first of the entries gives that gives anything. -/
theorem findSome?_eq_some_iff_first {α β : Type} {f : α → Option β} {entries : List α} {b : β} :
    entries.findSome? f = some b ↔
      ∃ (i : Nat) (x : α), entries[i]? = some x ∧ f x = some b ∧
        ∀ (j : Nat) (y : α), j < i → entries[j]? = some y → f y = none := by
  rw [List.findSome?_eq_some_iff]
  constructor
  · rintro ⟨front, x, back, rfl, hx, hfront⟩
    refine ⟨front.length, x, by simp, hx, fun j y hj hy => hfront y ?_⟩
    rw [List.getElem?_append_left hj] at hy
    exact List.mem_of_getElem? hy
  · rintro ⟨i, x, hi, hx, hfirst⟩
    obtain ⟨hlt, rfl⟩ := List.getElem?_eq_some_iff.1 hi
    refine ⟨entries.take i, entries[i], entries.drop (i + 1), ?_, hx, fun y hy => ?_⟩
    · rw [← List.drop_eq_getElem_cons hlt, List.take_append_drop]
    · obtain ⟨j, hj⟩ := List.mem_iff_getElem?.1 hy
      have hji : j < i := by
        have hbound := (List.getElem?_eq_some_iff.1 hj).1
        rw [List.length_take] at hbound
        omega
      rw [List.getElem?_take_of_lt hji] at hj
      exact hfirst j y hji hj

/-- The child is the one of the first item that is a property under a key. -/
def FirstUnder (items : List (Key × Atom)) (key : UInt32) (child : Atom) : Prop :=
  ∃ (i : Nat) (context : UInt32), items[i]? = some (.property key context, child) ∧
    ∀ (j : Nat) (context' : UInt32) (other : Atom), j < i →
      items[j]? ≠ some (.property key context', other)

namespace Shape

/-- The elements are as many as fit. -/
theorem length_cut (shape : Shape) (body : Bytes) :
    (shape.cut 0 (body.drop headerSize)).length = shape.count body := by
  have hlt : ∀ i, i < (shape.cut 0 (body.drop headerSize)).length ↔ i < shape.count body := by
    intro i
    have hsome : i < (shape.cut 0 (body.drop headerSize)).length ↔
        ((shape.cut 0 (body.drop headerSize))[i]?).isSome = true := by simp
    rw [hsome, getElem?_cut, List.length_drop]
    by_cases hpos : 0 < shape.size
    · have hcount : i < shape.count body ↔ (i + 1) * shape.size ≤ body.length - headerSize :=
        Nat.le_div_iff_mul_le hpos
      by_cases hin : (i + 1) * shape.size ≤ body.length - headerSize <;> simp [hcount, hpos, hin]
    · have hzero : shape.size = 0 := Nat.eq_zero_of_not_pos hpos
      rw [count, hzero]
      simp
  have hle := hlt (shape.count body)
  have hge := hlt (shape.cut 0 (body.drop headerSize)).length
  omega

end Shape

namespace Atom

variable {s : Schema} {a : Atom}

/-- Wherever children are counted, they are those that are found. -/
theorem length_eq_length_children (hkind : s.kindOf a.type = .tuple ∨ s.kindOf a.type = .sequence ∨
    s.kindOf a.type = .vector ∨ s.kindOf a.type = .object) :
    a.length s = (a.children s).length := by
  rcases hkind with hkind | hkind | hkind | hkind
  · rw [length, hkind]
  · rw [length, hkind]
  · rw [length, children, hkind]
    cases Shape.parse a.body with
    | none => rfl
    | some shape => exact (shape.length_cut a.body).symm
  · rw [length, hkind]

theorem child?_eq_getElem?_children (hkind : s.kindOf a.type = .tuple ∨
    s.kindOf a.type = .sequence ∨ s.kindOf a.type = .vector) (i : Nat) :
    a.child? s i = (a.children s)[i]?.map Prod.snd := by
  rcases hkind with hkind | hkind | hkind
  · rw [child?, hkind]
  · rw [child?, hkind]
  · rw [getElem?_children_vector hkind, Option.map_map]
    exact Option.map_id'.symm

theorem property?_eq_some_iff_first (hkind : s.kindOf a.type = .object) (key : UInt32) (child : Atom) :
    a.property? s key = some child ↔ FirstUnder (a.children s) key child := by
  rw [property?, hkind, FirstUnder]
  simp only
  rw [findSome?_eq_some_iff_first]
  constructor
  · rintro ⟨i, ⟨found, other⟩, hi, hfound, hfirst⟩
    cases found with
    | property found context =>
        simp only at hfound
        split at hfound
        · next heq =>
            cases heq
            cases hfound
            refine ⟨i, context, hi, fun j context' other hj hitem => ?_⟩
            simpa using hfirst j _ hj hitem
        · cases hfound
    | _ => cases hfound
  · rintro ⟨i, context, hi, hfirst⟩
    refine ⟨i, _, hi, if_pos rfl, fun j item hj hitem => ?_⟩
    obtain ⟨found, other⟩ := item
    cases found with
    | property found context' =>
        refine if_neg fun heq => ?_
        cases heq
        exact hfirst j context' other hj hitem
    | _ => rfl

theorem value?_urid (hdistinct : s.vocabulary.Distinct) {bs part : Bytes} {start : Nat}
    (hpart : bs.slice? start 4 = some part) :
    (ofBody (s.id .urid) part).value? s = (bs.word32At? start).map .urid := by
  have hkind : s.kindOf (s.id .urid) = .urid := Schema.kindOf_id hdistinct (by decide)
  have hlength : part.length = 4 := by
    rw [Bytes.slice?] at hpart
    split at hpart
    · next heq =>
        cases hpart
        exact heq
    · cases hpart
  have hwhole : part.slice? 0 4 = some part := by
    simp [Bytes.slice?, ← hlength]
  rw [value?, type_ofBody, hkind]
  simp only [body_ofBody, Bytes.word32At?, hpart, hwhole]

/-- An element of a vector has the type that the vector says, and as many bytes, behind the elements before
it. -/
theorem vector_item {shape : Shape} (hkind : s.kindOf a.type = .vector)
    (hshape : Shape.parse a.body = some shape) {i : Nat} {item : Key × Atom}
    (hitem : (a.children s)[i]? = some item) :
    0 < shape.size ∧ item.1 = .index i ∧ item.2.type = shape.type ∧
      item.2.body.length = shape.size ∧
      item.2.body = (a.body.drop (Shape.headerSize + i * shape.size)).take shape.size := by
  rw [children, hkind] at hitem
  simp only [hshape] at hitem
  rw [Shape.getElem?_cut, List.length_drop, List.drop_drop, Nat.zero_add] at hitem
  split at hitem
  · next hin =>
      cases hitem
      have hnext : (i + 1) * shape.size = i * shape.size + shape.size := Nat.succ_mul i shape.size
      refine ⟨hin.1, rfl, rfl, ?_, rfl⟩
      rw [body_ofBody, List.length_take, List.length_drop]
      omega
  · cases hitem

/-- A literal with a value has two words in front of its text, which are its pseudo-properties. -/
theorem children_literal (hdistinct : s.vocabulary.Distinct)
    (hnames : s.id .literalDatatype ≠ s.id .literalLang) {text : String} {datatype lang : UInt32}
    (hvalue : a.value? s = some (.literal text datatype lang)) :
    ∃ d l, a.property? s (s.id .literalDatatype) = some d ∧
      a.property? s (s.id .literalLang) = some l ∧
      d.value? s = some (.urid datatype) ∧ l.value? s = some (.urid lang) ∧
      a.children s = [(.property (s.id .literalDatatype) 0, d), (.property (s.id .literalLang) 0, l)] := by
  cases hkind : s.kindOf a.type with
  | literal =>
      rw [value?, hkind] at hvalue
      obtain ⟨first, hfirst, hrest⟩ := Option.bind_eq_some_iff.1 hvalue
      obtain ⟨second, hsecond, heq⟩ := Option.bind_eq_some_iff.1 hrest
      cases heq
      obtain ⟨part, hpart, -⟩ := Option.map_eq_some_iff.1 hfirst
      obtain ⟨part', hpart', -⟩ := Option.map_eq_some_iff.1 hsecond
      have hdatatype : a.literalProperty? s (s.id .literalDatatype)
          = some (ofBody (s.id .urid) part) := by
        rw [literalProperty?, if_pos rfl, hpart, Option.map_some]
      have hlang : a.literalProperty? s (s.id .literalLang) = some (ofBody (s.id .urid) part') := by
        rw [literalProperty?, if_neg hnames.symm, if_pos rfl, hpart', Option.map_some]
      refine ⟨_, _, by rw [property?, hkind]; exact hdatatype, by rw [property?, hkind]; exact hlang,
        ?_, ?_, ?_⟩
      · rw [value?_urid hdistinct hpart, hfirst, Option.map_some]
      · rw [value?_urid hdistinct hpart', hsecond, Option.map_some]
      · rw [children, hkind]
        simp only [literalProperties, hdatatype, hlang]
  | _ => simp [value?, hkind] at hvalue

end Atom

/-- The items that a cursor answers for an atom are what all other ways lead to, in every atom that is
reached from some bytes, whatever these are. In a tuple, a sequence and a vector the children are counted
and found by position as the cursor answers them. The elements of a vector lie one behind the other,
each of the size and the type that it says, and there are none when the size is zero. In an object a key
leads to the first item that has it. A literal shows the datatype and the language of its value. -/
theorem access_paths_agree {s : Schema} (hdistinct : s.vocabulary.Distinct)
    (hnames : s.id .literalDatatype ≠ s.id .literalLang) {bs : Bytes} {a : Atom}
    (ha : Reached s bs a) :
    ∃ items : List (Key × Atom),
      (∀ n, (Cursor.start s a).answers s a n = (List.range n).map fun i => items[i]?) ∧
      (∀ item ∈ items, Reached s bs item.2) ∧
      (s.kindOf a.type = .tuple ∨ s.kindOf a.type = .sequence ∨ s.kindOf a.type = .vector →
        a.length s = items.length ∧ ∀ i, a.child? s i = items[i]?.map Prod.snd) ∧
      (s.kindOf a.type = .vector → ∀ shape, Shape.parse a.body = some shape →
        items.length = (a.body.length - Shape.headerSize) / shape.size ∧
        (shape.size = 0 → items = []) ∧
        ∀ i item, items[i]? = some item →
          item.1 = .index i ∧ item.2.type = shape.type ∧ item.2.body.length = shape.size ∧
          item.2.body = (a.body.drop (Shape.headerSize + i * shape.size)).take shape.size) ∧
      (s.kindOf a.type = .object →
        a.length s = items.length ∧
        ∀ key child, a.property? s key = some child ↔ FirstUnder items key child) ∧
      ∀ text datatype lang, a.value? s = some (.literal text datatype lang) →
        ∃ d l, a.property? s (s.id .literalDatatype) = some d ∧
          a.property? s (s.id .literalLang) = some l ∧
          d.value? s = some (.urid datatype) ∧ l.value? s = some (.urid lang) ∧
          items = [(.property (s.id .literalDatatype) 0, d), (.property (s.id .literalLang) 0, l)] := by
  refine ⟨a.children s, fun n => Cursor.answers_start s a n, ?_, ?_, ?_, ?_, ?_⟩
  · intro item hitem
    obtain ⟨i, hi⟩ := List.mem_iff_getElem?.1 hitem
    refine @Reached.child s bs a item.2 item.1 (i + 1) ha ?_
    rw [Cursor.answers_start, ← hi]
    exact List.mem_map.2 ⟨i, List.mem_range.2 (Nat.lt_succ_self i), rfl⟩
  · intro hkind
    have hcounted : s.kindOf a.type = .tuple ∨ s.kindOf a.type = .sequence ∨
        s.kindOf a.type = .vector ∨ s.kindOf a.type = .object :=
      hkind.imp_right (Or.imp_right Or.inl)
    exact ⟨Atom.length_eq_length_children hcounted, Atom.child?_eq_getElem?_children hkind⟩
  · intro hkind shape hshape
    have hlength : (a.children s).length = shape.count a.body := by
      rw [Atom.children, hkind]
      simp only [hshape, Shape.length_cut]
    refine ⟨hlength, fun hzero => ?_, fun i item hitem => (Atom.vector_item hkind hshape hitem).2⟩
    rw [← List.length_eq_zero_iff, hlength, Shape.count, hzero, Nat.div_zero]
  · intro hkind
    exact ⟨Atom.length_eq_length_children (.inr (.inr (.inr hkind))),
      Atom.property?_eq_some_iff_first hkind⟩
  · intro text datatype lang hvalue
    exact Atom.children_literal hdistinct hnames hvalue

/-- An object with one key twice, in which the last property ends early. -/
theorem access_paths_agree_twice :
    let v : Vocabulary := ⟨fun t => UInt32.ofNat (Term.all.idxOf t)⟩
    let s : Schema := .ofVocabulary v
    let property (x : UInt32) := Bytes.word32 7 ++ Bytes.word32 0 ++
      Atom.encode (v.id .int) (Bytes.word32 x)
    let bs : Bytes := Atom.encode (v.id .object)
      (Bytes.word32 1 ++ Bytes.word32 2 ++ property 3 ++ property 4 ++ (property 5).take 18)
    ∃ a, Reached s bs a ∧ a.length s = 2 ∧
      a.property? s 7 = some (.ofBody (v.id .int) (Bytes.word32 3)) := by
  intro v s property bs
  let a : Atom := .ofBody (v.id .object)
    (Bytes.word32 1 ++ Bytes.word32 2 ++ property 3 ++ property 4 ++ (property 5).take 18)
  have ha : Reached s bs a := .root (by decide)
  have hkind : s.kindOf a.type = .object := by decide
  obtain ⟨items, hanswers, -, -, -, hobject, -⟩ :=
    access_paths_agree (s := s) (by decide) (by decide) ha
  obtain ⟨hlength, hproperty⟩ := hobject hkind
  have hthree : (Cursor.start s a).answers s a 3 =
      [some (.property 7 0, .ofBody (v.id .int) (Bytes.word32 3)),
        some (.property 7 0, .ofBody (v.id .int) (Bytes.word32 4)), none] := by decide
  obtain ⟨hfirst, hsecond, hend⟩ : items[0]? = some (.property 7 0, .ofBody (v.id .int) (Bytes.word32 3)) ∧
      items[1]? = some (.property 7 0, .ofBody (v.id .int) (Bytes.word32 4)) ∧ items[2]? = none := by
    simpa [List.range_succ] using (hanswers 3).symm.trans hthree
  refine ⟨a, ha, ?_, (hproperty 7 _).2 ⟨0, 0, hfirst, fun j _ _ hj => absurd hj (Nat.not_lt_zero j)⟩⟩
  have hmore := (List.getElem?_eq_some_iff.1 hsecond).1
  have hless := List.getElem?_eq_none_iff.1 hend
  omega

end BlockHost
