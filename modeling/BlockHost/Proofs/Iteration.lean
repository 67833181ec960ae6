import BlockHost.Proofs.Cursors

/-!
# Reading arbitrary bytes

The sizes in a body are whatever somebody has written there. What a reader makes of them is said
here without a reader, by places in the body alone: a child is there when its key, its header
and all that the header declares end inside the body, and the next one should begin at its
padded end (`Layout.Greedy`). The first child that is not there ends the reading, although more
of the body may be left, and although the padded end of the child before may lie behind the
body.

A cursor answers exactly the children at these places, each once, and then nothing for ever
(`iteration_greedy`). It does so in every atom that can be reached from the bytes, to any depth,
because all that it looks at is a run of these bytes.
-/

namespace BlockHost

/-! ## The atom at the start of some bytes -/

namespace Bytes

theorem word32At?_eq (bs : Bytes) (start : Nat) :
    bs.word32At? start =
      if start + 4 ≤ bs.length then some (UInt32.ofNat (toNat ((bs.drop start).take 4)))
      else none := by
  rw [word32At?, slice?]
  by_cases h : start + 4 ≤ bs.length
  · rw [if_pos (by simp; omega), if_pos h]
    rfl
  · rw [if_neg (by simp; omega), if_neg h]
    rfl

theorem int64At?_isSome {bs : Bytes} (h : 8 ≤ bs.length) : (bs.int64At? 0).isSome := by
  rw [int64At?, word64At?, slice?]
  simp [h]

theorem toNat_take_lt (bs : Bytes) : toNat (bs.take 4) < 2 ^ 32 := by
  have hlt := toNat_lt (bs.take 4)
  have hle := List.length_take_le 4 bs
  have hpow : 256 ^ (bs.take 4).length ≤ 256 ^ 4 := Nat.pow_le_pow_right (by omega) hle
  omega

end Bytes

namespace Atom

/-- The size that a header at the start of some bytes declares. -/
def declaredSize (bs : Bytes) : Nat :=
  Bytes.toNat (bs.take 4)

/-- The atom at the start of bytes that hold all of it. -/
def atStart (bs : Bytes) : Atom where
  type := UInt32.ofNat (Bytes.toNat ((bs.drop 4).take 4))
  size := UInt32.ofNat (declaredSize bs)
  body := (bs.drop headerSize).take (declaredSize bs)

theorem toNat_declaredSize (bs : Bytes) :
    (UInt32.ofNat (declaredSize bs)).toNat = declaredSize bs := by
  rw [UInt32.toNat_ofNat']
  exact Nat.mod_eq_of_lt (Bytes.toNat_take_lt bs)

theorem parse_eq (bs : Bytes) :
    parse bs = if headerSize ≤ bs.length then some (atStart bs) else none := by
  have hsize := toNat_declaredSize bs
  rw [parse, Bytes.word32At?_eq, Bytes.word32At?_eq, List.drop_zero]
  by_cases h : headerSize ≤ bs.length
  · rw [if_pos h]
    unfold headerSize at h
    rw [if_pos (show 0 + 4 ≤ bs.length by omega), if_pos (show 4 + 4 ≤ bs.length from h)]
    simp only [atStart, Option.bind_eq_bind, Option.bind_some, Option.pure_def, declaredSize]
      at hsize ⊢
    rw [hsize]
  · rw [if_neg h]
    unfold headerSize at h
    rw [if_neg (show ¬ 4 + 4 ≤ bs.length by omega)]
    cases (if 0 + 4 ≤ bs.length then some (UInt32.ofNat (Bytes.toNat (bs.take 4))) else none)
      <;> rfl

theorem parseWhole_eq (bs : Bytes) :
    parseWhole bs =
      if headerSize + declaredSize bs ≤ bs.length then some (atStart bs) else none := by
  rw [parseWhole, parse_eq]
  by_cases h : headerSize ≤ bs.length
  · rw [if_pos h, Option.filter_some, isTruncated]
    have hsize := toNat_declaredSize bs
    by_cases hwhole : headerSize + declaredSize bs ≤ bs.length
    · rw [if_pos hwhole, if_pos]
      simp only [atStart, hsize, List.length_take, List.length_drop, Bool.not_eq_true',
        decide_eq_false_iff_not]
      omega
    · rw [if_neg hwhole, if_neg]
      simp only [atStart, hsize, List.length_take, List.length_drop, Bool.not_eq_true',
        decide_eq_false_iff_not]
      omega
  · rw [if_neg h, if_neg (by omega)]
    rfl

end Atom

/-! ## Places of children -/

namespace Layout

variable (l : Layout) (body : Bytes)

/-- Where the header of a child ends that begins at a place. -/
def headerStop (start : Nat) : Nat :=
  start + l.keySize + Atom.headerSize

/-- The size that the header of a child declares. -/
def declared (start : Nat) : Nat :=
  Atom.declaredSize (body.drop (start + l.keySize))

/-- Where a child ends. -/
def stop (start : Nat) : Nat :=
  l.headerStop start + l.declared body start

/-- Where the next child should begin. -/
def paddedStop (start : Nat) : Nat :=
  start + l.keySize + padded (Atom.headerSize + l.declared body start)

/-- The places of the children in a body, from a place on. -/
inductive Greedy : (start : Nat) → (starts : List Nat) → Prop where
  | stop {start : Nat} : body.length < l.stop body start → Greedy start []
  | child {start : Nat} {rest : List Nat} : l.stop body start ≤ body.length →
      Greedy (l.paddedStop body start) rest → Greedy start (start :: rest)

/-- The child at a place, with its key. -/
def childAt (position start : Nat) : Option (Key × Atom) :=
  (l.key position (body.drop start)).map fun key =>
    (key, Atom.atStart (body.drop (start + l.keySize)))

/-- A layout whose keys are read from any bytes that are long enough. -/
def Readable : Prop :=
  ∀ (position : Nat) (bs : Bytes), l.keySize ≤ bs.length → (l.key position bs).isSome

theorem readable_tuple : tuple.Readable := fun _ _ _ => rfl

theorem readable_object : object.Readable := by
  intro position bs h
  simp only [object] at h
  simp only [object, Bytes.word32At?_eq]
  rw [if_pos (by omega), if_pos (by omega)]
  rfl

theorem readable_sequence : sequence.Readable := by
  intro position bs h
  simp only [sequence, Option.isSome_map]
  exact Bytes.int64At?_isSome h

variable {l : Layout} {body : Bytes} {start position : Nat} {starts : List Nat}

/-- A child is read at a place exactly when it ends inside the body. -/
theorem head?_drop :
    l.head? position (body.drop start) =
      if l.stop body start ≤ body.length then l.childAt body position start else none := by
  rw [head?, childAt, List.drop_drop, Atom.parseWhole_eq, List.length_drop]
  by_cases h : l.stop body start ≤ body.length
  · have hfit : Atom.headerSize + Atom.declaredSize (body.drop (start + l.keySize))
        ≤ body.length - (start + l.keySize) := by
      simp only [stop, headerStop, declared] at h
      omega
    rw [if_pos hfit, if_pos h]
    cases l.key position (body.drop start) <;> rfl
  · have hno : ¬ Atom.headerSize + Atom.declaredSize (body.drop (start + l.keySize))
        ≤ body.length - (start + l.keySize) := by
      simp only [stop, headerStop, declared] at h
      unfold Atom.headerSize at *
      omega
    rw [if_neg hno, if_neg h]
    cases l.key position (body.drop start) <;> rfl

theorem childAt_isSome (hl : l.Readable) (h : l.stop body start ≤ body.length) :
    (l.childAt body position start).isSome := by
  rw [childAt, Option.isSome_map]
  refine hl position _ ?_
  rw [List.length_drop]
  simp only [stop, headerStop] at h
  omega

theorem headerStop_le_stop : l.headerStop start ≤ l.stop body start :=
  Nat.le_add_right _ _

theorem stop_le_paddedStop : l.stop body start ≤ l.paddedStop body start := by
  have hle := le_padded (Atom.headerSize + l.declared body start)
  simp only [stop, headerStop, paddedStop]
  omega

namespace Greedy

theorem unique {other : List Nat} (hs : l.Greedy body start starts)
    (ho : l.Greedy body start other) :
    starts = other := by
  induction hs generalizing other with
  | stop hout =>
      cases ho with
      | stop => rfl
      | child hin => exact absurd hin (Nat.not_le.2 hout)
  | child hin _ ih =>
      cases ho with
      | stop hout => exact absurd hin (Nat.not_le.2 hout)
      | child _ hrest => rw [ih hrest]

theorem start_le (hs : l.Greedy body start starts) : ∀ p ∈ starts, start ≤ p := by
  induction hs with
  | stop => exact fun p hp => absurd hp List.not_mem_nil
  | @child start rest hin hrest ih =>
      intro p hp
      have hle : start ≤ l.headerStop start := by
        rw [headerStop]
        omega
      rcases List.mem_cons.1 hp with rfl | hp
      · exact Nat.le_refl _
      · have hstop := @headerStop_le_stop l body start
        have hpadded := @stop_le_paddedStop l body start
        exact Nat.le_trans hle (by have := ih p hp; omega)

theorem stop_le (hs : l.Greedy body start starts) : ∀ p ∈ starts, l.stop body p ≤ body.length := by
  induction hs with
  | stop => exact fun p hp => absurd hp List.not_mem_nil
  | child hin _ ih =>
      intro p hp
      rcases List.mem_cons.1 hp with rfl | hp
      · exact hin
      · exact ih p hp

theorem pairwise (hs : l.Greedy body start starts) :
    starts.Pairwise fun p q => l.paddedStop body p ≤ q := by
  induction hs with
  | stop => exact .nil
  | child _ hrest ih => exact .cons hrest.start_le ih

/-- Every child takes the eight bytes of its header. The padding of the last one may lie behind
the body, so the count is led from the front. -/
theorem count_le (hs : l.Greedy body start starts) :
    starts = [] ∨ start + 8 * starts.length ≤ body.length := by
  induction hs with
  | stop => exact .inl rfl
  | @child start rest hin _ ih =>
      right
      have hheader : start + 8 ≤ l.headerStop start := by
        rw [headerStop, Atom.headerSize]
        omega
      have hstop := @headerStop_le_stop l body start
      have hpadded := @stop_le_paddedStop l body start
      rw [List.length_cons]
      rcases ih with rfl | hle
      · rw [List.length_nil]
        omega
      · omega

end Greedy

/-- Reading a body from a place on finds the children at the greedy places. -/
theorem parse_greedy (hl : l.Readable) (body : Bytes) (start position : Nat) :
    ∃ starts, l.Greedy body start starts ∧
      ∀ i, (l.parse position (body.drop start))[i]? =
        starts[i]?.bind (l.childAt body (position + i)) := by
  by_cases hin : l.stop body start ≤ body.length
  · obtain ⟨⟨key, child⟩, hchild⟩ :=
      Option.isSome_iff_exists.1 (@childAt_isSome _ body start position hl hin)
    have hat : child = Atom.atStart (body.drop (start + l.keySize)) := by
      rw [childAt, Option.map_eq_some_iff] at hchild
      obtain ⟨_, _, heq⟩ := hchild
      exact (Prod.mk.inj heq).2.symm
    have hnext : start + (l.keySize + child.paddedSize) = l.paddedStop body start := by
      rw [hat, paddedStop, Atom.paddedSize, Atom.totalSize, declared, ← Nat.add_assoc]
      congr 3
      exact Atom.toNat_declaredSize _
    have hstop := @headerStop_le_stop l body start
    have hpadded := @stop_le_paddedStop l body start
    have hlt : body.length - l.paddedStop body start < body.length - start := by
      rw [headerStop, Atom.headerSize] at hstop
      omega
    obtain ⟨rest, hrest, hparse⟩ := parse_greedy hl body (l.paddedStop body start) (position + 1)
    refine ⟨start :: rest, .child hin hrest, fun i => ?_⟩
    rw [parse_eq, head?_drop, if_pos hin, hchild]
    simp only
    rw [List.drop_drop, hnext]
    cases i with
    | zero => exact hchild.symm
    | succ i =>
        rw [List.getElem?_cons_succ, List.getElem?_cons_succ, hparse i]
        congr 2
        omega
  · refine ⟨[], .stop (Nat.not_le.1 hin), fun i => ?_⟩
    rw [parse_eq, head?_drop, if_neg hin]
    rfl
termination_by body.length - start

end Layout

/-! ## What can be reached -/

/-- The atoms that a reader gets to from some bytes. -/
inductive Reached (s : Schema) (bs : Bytes) : Atom → Prop where
  | root {a : Atom} : Atom.parse bs = some a → Reached s bs a
  | child {a child : Atom} {key : Key} {n : Nat} : Reached s bs a →
      some (key, child) ∈ (Cursor.start s a).answers s a n → Reached s bs child
  | position {a child : Atom} {i : Nat} : Reached s bs a → a.child? s i = some child →
      Reached s bs child
  | property {a child : Atom} {key : UInt32} : Reached s bs a → a.property? s key = some child →
      Reached s bs child

namespace Bytes

theorem slice?_infix {bs part : Bytes} {start len : Nat} (h : bs.slice? start len = some part) :
    part <:+: bs := by
  rw [slice?] at h
  split at h
  · cases h
    exact (List.take_prefix _ _).isInfix.trans (List.drop_suffix _ _).isInfix
  · cases h

end Bytes

namespace Atom

theorem body_atStart_infix (bs : Bytes) : (atStart bs).body <:+: bs :=
  (List.take_prefix _ _).isInfix.trans (List.drop_suffix _ _).isInfix

theorem body_infix_of_parse {bs : Bytes} {a : Atom} (h : parse bs = some a) : a.body <:+: bs := by
  rw [parse_eq] at h
  split at h
  · cases h
    exact body_atStart_infix bs
  · cases h

end Atom

theorem Atom.body_infix_of_parseWhole {bs : Bytes} {a : Atom} (h : parseWhole bs = some a) :
    a.body <:+: bs :=
  body_infix_of_parse (Option.filter_eq_some_iff.1 h).1

theorem Layout.body_infix_of_mem_parse (l : Layout) {position : Nat} {bs : Bytes} {key : Key}
    {child : Atom} (h : (key, child) ∈ l.parse position bs) : child.body <:+: bs := by
  fun_induction Layout.parse l position bs with
  | case1 => cases h
  | case2 position bs first other hhead ih =>
      rcases List.mem_cons.1 h with heq | hmem
      · cases heq
        obtain ⟨_, _, hrest⟩ := Option.bind_eq_some_iff.1 hhead
        obtain ⟨_, hwhole, heq⟩ := Option.bind_eq_some_iff.1 hrest
        cases heq
        exact (Atom.body_infix_of_parseWhole hwhole).trans (List.drop_suffix _ _).isInfix
      · exact (ih hmem).trans (List.drop_suffix _ _).isInfix

theorem Shape.body_infix_of_mem_cut (shape : Shape) {position : Nat} {bs : Bytes} {key : Key}
    {child : Atom} (h : (key, child) ∈ shape.cut position bs) : child.body <:+: bs := by
  obtain ⟨i, hi⟩ := List.mem_iff_getElem?.1 h
  rw [getElem?_cut] at hi
  split at hi
  · cases hi
    exact (List.take_prefix _ _).isInfix.trans (List.drop_suffix _ _).isInfix
  · cases hi

namespace Atom

theorem body_infix_of_literalProperty {s : Schema} {a child : Atom} {key : UInt32}
    (h : a.literalProperty? s key = some child) : child.body <:+: a.body := by
  have hslice : ∀ start, (a.body.slice? start 4).map (ofBody (s.id .urid)) = some child →
      child.body <:+: a.body := by
    intro start hmap
    obtain ⟨part, hpart, rfl⟩ := Option.map_eq_some_iff.1 hmap
    exact Bytes.slice?_infix hpart
  rw [literalProperty?] at h
  split at h
  · exact hslice 0 h
  · split at h
    · exact hslice 4 h
    · cases h

theorem body_infix_of_mem_children {s : Schema} {a child : Atom} {key : Key}
    (h : (key, child) ∈ a.children s) : child.body <:+: a.body := by
  rw [children] at h
  cases hkind : s.kindOf a.type with
  | tuple =>
      rw [hkind] at h
      exact Layout.body_infix_of_mem_parse _ h
  | object =>
      rw [hkind] at h
      exact (Layout.body_infix_of_mem_parse _ h).trans (List.drop_suffix _ _).isInfix
  | sequence =>
      rw [hkind] at h
      exact Layout.body_infix_of_mem_parse _ h
  | vector =>
      rw [hkind] at h
      cases hshape : Shape.parse a.body with
      | none =>
          rw [hshape] at h
          cases h
      | some shape =>
          rw [hshape] at h
          exact (shape.body_infix_of_mem_cut h).trans (List.drop_suffix _ _).isInfix
  | literal =>
      rw [hkind] at h
      obtain ⟨i, hi⟩ := List.mem_iff_getElem?.1 h
      rw [getElem?_literalProperties] at hi
      obtain ⟨_, _, hmap⟩ := Option.bind_eq_some_iff.1 hi
      obtain ⟨_, hproperty, heq⟩ := Option.map_eq_some_iff.1 hmap
      cases heq
      exact body_infix_of_literalProperty hproperty
  | _ =>
      rw [hkind] at h
      cases h

theorem body_infix_of_child {s : Schema} {a child : Atom} {i : Nat}
    (h : a.child? s i = some child) :
    child.body <:+: a.body := by
  have hlist : (a.children s)[i]?.map Prod.snd = some child → child.body <:+: a.body := by
    intro hmap
    obtain ⟨_, hfound, rfl⟩ := Option.map_eq_some_iff.1 hmap
    exact body_infix_of_mem_children (List.mem_of_getElem? hfound)
  cases hkind : s.kindOf a.type with
  | tuple =>
      rw [child?, hkind] at h
      exact hlist h
  | sequence =>
      rw [child?, hkind] at h
      exact hlist h
  | vector =>
      have hentry := getElem?_children_vector hkind i
      rw [h] at hentry
      exact body_infix_of_mem_children (List.mem_of_getElem? hentry)
  | _ =>
      rw [child?, hkind] at h
      cases h

theorem body_infix_of_property {s : Schema} {a child : Atom} {key : UInt32}
    (h : a.property? s key = some child) : child.body <:+: a.body := by
  cases hkind : s.kindOf a.type with
  | object =>
      rw [property?, hkind] at h
      obtain ⟨entry, hmem, hentry⟩ := List.exists_of_findSome?_eq_some h
      obtain ⟨found, other⟩ := entry
      cases found with
      | property found context =>
          simp only at hentry
          split at hentry
          · cases hentry
            exact body_infix_of_mem_children hmem
          · cases hentry
      | _ => cases hentry
  | literal =>
      rw [property?, hkind] at h
      exact body_infix_of_literalProperty h
  | _ =>
      rw [property?, hkind] at h
      cases h

/-- How the children of an atom lie that is read from the left. -/
def layout? (s : Schema) (a : Atom) : Option Layout :=
  match s.kindOf a.type with
  | .tuple => some .tuple
  | .object => some .object
  | .sequence => some .sequence
  | _ => none

end Atom

theorem Cursor.mem_answers {s : Schema} {a child : Atom} {key : Key} {n : Nat}
    (h : some (key, child) ∈ (Cursor.start s a).answers s a n) : (key, child) ∈ a.children s := by
  rw [answers_start] at h
  obtain ⟨i, _, hi⟩ := List.mem_map.1 h
  exact List.mem_of_getElem? hi

/-- All that is looked at is there. -/
theorem Reached.body_infix {s : Schema} {bs : Bytes} {a : Atom} (h : Reached s bs a) :
    a.body <:+: bs := by
  induction h with
  | root hparse => exact Atom.body_infix_of_parse hparse
  | child _ hanswer ih =>
      exact (Atom.body_infix_of_mem_children (Cursor.mem_answers hanswer)).trans ih
  | position _ hchild ih => exact (Atom.body_infix_of_child hchild).trans ih
  | property _ hchild ih => exact (Atom.body_infix_of_property hchild).trans ih

/-- Every tuple, object or sequence that is reached from some bytes lies in them, and its cursor
answers with exactly the children at the greedy places: each in its turn, and then nothing for
ever. The places are in order and their children lie side by side in the body, so there are at
most as many as the body has room for headers. -/
theorem iteration_greedy {s : Schema} {bs : Bytes} {a : Atom} (ha : Reached s bs a) {l : Layout}
    (hl : a.layout? s = some l) :
    a.body <:+: bs ∧ ∃ starts : List Nat,
      (∀ other, l.Greedy a.body (Cursor.start s a).position other ↔ other = starts) ∧
      (∀ n, (Cursor.start s a).answers s a n =
        (List.range n).map fun i => starts[i]?.bind (l.childAt a.body i)) ∧
      (∀ p ∈ starts, l.stop a.body p ≤ a.body.length ∧ ∀ i, (l.childAt a.body i p).isSome) ∧
      (starts.Pairwise fun p q => l.stop a.body p ≤ q) ∧
      starts.length ≤ a.body.length / 8 := by
  have hread : l.Readable ∧
      a.children s = l.parse 0 (a.body.drop (Cursor.start s a).position) := by
    rw [Atom.layout?] at hl
    cases hkind : s.kindOf a.type with
    | tuple =>
        rw [hkind] at hl
        cases hl
        exact ⟨Layout.readable_tuple, by rw [Atom.children, Cursor.start, hkind]; rfl⟩
    | object =>
        rw [hkind] at hl
        cases hl
        exact ⟨Layout.readable_object, by rw [Atom.children, Cursor.start, hkind]⟩
    | sequence =>
        rw [hkind] at hl
        cases hl
        exact ⟨Layout.readable_sequence, by rw [Atom.children, Cursor.start, hkind]; rfl⟩
    | _ =>
        rw [hkind] at hl
        cases hl
  obtain ⟨hreadable, hchildren⟩ := hread
  obtain ⟨starts, hgreedy, hparse⟩ :=
    Layout.parse_greedy hreadable a.body (Cursor.start s a).position 0
  refine ⟨ha.body_infix, starts, fun other => ?_, fun n => ?_, fun p hp => ?_, ?_, ?_⟩
  · exact ⟨fun hother => hother.unique hgreedy, fun heq => heq ▸ hgreedy⟩
  · rw [Cursor.answers_start, hchildren]
    refine List.map_congr_left fun i _ => ?_
    rw [hparse i, Nat.zero_add]
  · have hstop := hgreedy.stop_le p hp
    exact ⟨hstop, fun i => Layout.childAt_isSome hreadable hstop⟩
  · exact hgreedy.pairwise.imp fun hle => Nat.le_trans Layout.stop_le_paddedStop hle
  · rcases hgreedy.count_le with rfl | hcount
    · exact Nat.zero_le _
    · omega

/-- A tuple in a tuple. The inner one ends behind its only child, in front of the padding of that
child. The outer one declares more than there is, and so does its second child. -/
theorem iteration_greedy_cut :
    let v : Vocabulary := ⟨fun t => UInt32.ofNat (Term.all.idxOf t)⟩
    let s : Schema := .ofVocabulary v
    let inner : Bytes := Atom.header (v.id .int) 4 ++ [1, 2, 3, 4]
    let bs : Bytes := Atom.header (v.id .tuple) 0xFFFFFFF0 ++
      (Atom.encode (v.id .tuple) inner ++ Atom.header (v.id .chunk) 0xFFFFFFFF)
    let a : Atom := .ofBody (v.id .tuple) inner
    a.body <:+: bs ∧ ∃ starts : List Nat,
      (∀ other, Layout.tuple.Greedy a.body (Cursor.start s a).position other ↔ other = starts) ∧
      (∀ n, (Cursor.start s a).answers s a n =
        (List.range n).map fun i => starts[i]?.bind (Layout.tuple.childAt a.body i)) ∧
      (∀ p ∈ starts, Layout.tuple.stop a.body p ≤ a.body.length ∧
        ∀ i, (Layout.tuple.childAt a.body i p).isSome) ∧
      (starts.Pairwise fun p q => Layout.tuple.stop a.body p ≤ q) ∧
      starts.length ≤ a.body.length / 8 := by
  intro v s inner bs a
  have hroot : Atom.parse bs = some ⟨v.id .tuple, 0xFFFFFFF0, bs.drop 8⟩ := by decide
  have hchild : some (.index 0, a) ∈ (Cursor.start s ⟨v.id .tuple, 0xFFFFFFF0, bs.drop 8⟩).answers s
      ⟨v.id .tuple, 0xFFFFFFF0, bs.drop 8⟩ 1 := by decide
  have hlayout : a.layout? s = some .tuple := by
    rw [Atom.layout?, show s.kindOf a.type = .tuple by decide]
  exact iteration_greedy (.child (.root hroot) hchild) hlayout

end BlockHost
