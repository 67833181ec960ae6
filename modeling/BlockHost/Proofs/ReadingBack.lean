import BlockHost.Atom.Value

/-!
# What is written is read

The laws of reading, for bytes of which it is known how they were put together. A child that
stands at the start of a body, behind the bytes that say its key, is the first child that is
read, and reading goes on behind its padding (`Layout.parse_append`). The elements of a vector
lie without padding and are read one size after the other (`Shape.cut_flatten`). A type of the
vocabulary has its kind, as soon as no other of the seventeen types has the same number
(`Schema.kindOf_id`).
-/

namespace BlockHost

namespace Atom

@[simp] theorem type_ofBody (type : UInt32) (body : Bytes) : (ofBody type body).type = type := rfl
@[simp] theorem body_ofBody (type : UInt32) (body : Bytes) : (ofBody type body).body = body := rfl

theorem toNat_size_ofBody {body : Bytes} (h : body.length < 2 ^ 32) (type : UInt32) :
    (ofBody type body).size.toNat = body.length := by
  rw [ofBody, UInt32.toNat_ofNat']
  exact Nat.mod_eq_of_lt h

theorem totalSize_ofBody {body : Bytes} (h : body.length < 2 ^ 32) (type : UInt32) :
    (ofBody type body).totalSize = headerSize + body.length := by
  rw [totalSize, toNat_size_ofBody h]

theorem paddedSize_ofBody {body : Bytes} (h : body.length < 2 ^ 32) (type : UInt32) :
    (ofBody type body).paddedSize = (encode type body).length := by
  rw [paddedSize, totalSize_ofBody h, length_encode, headerSize]

/-- An atom whose body is all there is given by its type and its body. -/
theorem ofBody_of_whole {a : Atom} (h : a.body.length = a.size.toNat) :
    ofBody a.type a.body = a := by
  cases a with
  | mk type size body =>
      simp only at h
      rw [ofBody, h, UInt32.ofNat_toNat]

theorem whole_of_parseWhole {bs : Bytes} {a : Atom} (h : parseWhole bs = some a) :
    a.body.length = a.size.toNat := by
  obtain ⟨hparse, hwhole⟩ := Option.filter_eq_some_iff.1 h
  obtain ⟨size, -, hrest⟩ := Option.bind_eq_some_iff.1 hparse
  obtain ⟨type, -, hatom⟩ := Option.bind_eq_some_iff.1 hrest
  cases hatom
  simp only [isTruncated, Bool.not_eq_true', decide_eq_false_iff_not, Nat.not_lt] at hwhole
  have hle := List.length_take_le size.toNat (bs.drop headerSize)
  exact Nat.le_antisymm hle hwhole

end Atom

/-! ## Children -/

namespace Layout

/-- The bytes in front of a child that say its key. -/
structure Marks (l : Layout) (position : Nat) (key : Key) (mark : Bytes) : Prop where
  length_eq : mark.length = l.keySize
  key_eq : ∀ rest, l.key position (mark ++ rest) = some key

theorem marks_tuple (position : Nat) : tuple.Marks position (.index position) [] :=
  ⟨rfl, fun _ => rfl⟩

theorem marks_object (position : Nat) (key context : UInt32) :
    object.Marks position (.property key context) (Bytes.word32 key ++ Bytes.word32 context) := by
  refine ⟨by simp [object], fun rest => ?_⟩
  have hkey := Bytes.word32At?_append [] (Bytes.word32 context ++ rest) key
  have hcontext := Bytes.word32At?_append (Bytes.word32 key) rest context
  simp only [List.nil_append, List.length_nil, ← List.append_assoc] at hkey
  rw [Bytes.length_word32] at hcontext
  simp only [object, hkey, hcontext]
  rfl

theorem marks_sequence (position : Nat) (t : Int64) :
    sequence.Marks position (.time t) (Bytes.int64 t) := by
  refine ⟨by simp [sequence], fun rest => ?_⟩
  have ht := Bytes.int64At?_append [] rest t
  simp only [List.nil_append, List.length_nil] at ht
  simp only [sequence, ht]
  rfl

variable {l : Layout} {position : Nat} {key : Key} {mark : Bytes}

theorem parse_eq (l : Layout) (position : Nat) (bs : Bytes) :
    l.parse position bs =
      match l.head? position bs with
      | none => []
      | some (key, child) =>
          (key, child) :: l.parse (position + 1) (bs.drop (l.keySize + child.paddedSize)) := by
  rw [parse]
  split
  · next h => rw [h]
  · next h => rw [h]

theorem parse_nil (l : Layout) (position : Nat) : l.parse position [] = [] := by
  rw [parse_eq]
  cases hhead : l.head? position [] with
  | none => rfl
  | some found => exact absurd (length_pos_of_head? hhead) (Nat.lt_irrefl 0)

/-- A child is read where it was written, whatever follows it. -/
theorem parse_append (hm : l.Marks position key mark) (type : UInt32) {body : Bytes}
    (hbody : body.length < 2 ^ 32) (rest : Bytes) :
    l.parse position (mark ++ Atom.encode type body ++ rest)
      = (key, Atom.ofBody type body) :: l.parse (position + 1) rest := by
  have hhead : l.head? position (mark ++ Atom.encode type body ++ rest)
      = some (key, Atom.ofBody type body) := by
    rw [head?, List.append_assoc, hm.key_eq, ← hm.length_eq, List.drop_left,
      Atom.parseWhole_encode type body rest hbody]
    rfl
  rw [parse_eq, hhead]
  simp only
  rw [Atom.paddedSize_ofBody hbody, ← hm.length_eq, ← List.length_append, List.drop_left]

end Layout

/-! ## Elements -/

namespace Shape

theorem parse_append (type size : UInt32) (rest : Bytes) :
    parse (Bytes.word32 type ++ Bytes.word32 size ++ rest) = some ⟨type, size.toNat⟩ := by
  have htype := Bytes.word32At?_append [] (Bytes.word32 size ++ rest) type
  have hsize := Bytes.word32At?_append (Bytes.word32 type) rest size
  simp only [List.nil_append, List.length_nil, ← List.append_assoc] at htype
  rw [Bytes.length_word32] at hsize
  simp only [parse, htype, hsize]
  rfl

/-- Bodies of one size are read as they lie. -/
theorem cut_flatten {shape : Shape} (hpos : 0 < shape.size) {bodies : List Bytes}
    (hsize : ∀ body ∈ bodies, body.length = shape.size) (position : Nat) :
    shape.cut position bodies.flatten =
      (bodies.zipIdx position).map fun (body, i) => (.index i, Atom.ofBody shape.type body) := by
  induction bodies generalizing position with
  | nil =>
      rw [List.flatten_nil, cut, dif_neg (by rw [List.length_nil]; omega)]
      rfl
  | cons body rest ih =>
      have hlen := hsize body List.mem_cons_self
      have hrest := ih (fun b hb => hsize b (List.mem_cons_of_mem _ hb)) (position + 1)
      rw [List.flatten_cons, cut, dif_pos ⟨hpos, by rw [List.length_append]; omega⟩, ← hlen,
        List.take_left, List.drop_left, hrest]
      rfl

end Shape

/-! ## Kinds -/

/-- No two of the seventeen types have the same number. -/
def Vocabulary.Distinct (v : Vocabulary) : Prop :=
  (Kind.ofTerm.map fun row => v.id row.1).Nodup

instance (v : Vocabulary) : Decidable v.Distinct :=
  inferInstanceAs (Decidable (List.Nodup _))

namespace Kind

theorem lookup_row (x : UInt32) (row : UInt32 × Kind) (rows : List (UInt32 × Kind)) :
    (row :: rows).lookup x = if x = row.1 then some row.2 else rows.lookup x := by
  rw [List.lookup_cons]
  by_cases hx : x = row.1
  · rw [if_pos hx, beq_iff_eq.2 hx]
  · rw [if_neg hx, beq_eq_false_iff_ne.2 hx]

theorem lookup_insertRow {type : UInt32} {kind : Kind} {rows : List (UInt32 × Kind)}
    (hnew : rows.lookup type = none) (x : UInt32) :
    (insertRow type kind rows).lookup x = if x = type then some kind else rows.lookup x := by
  induction rows with
  | nil => exact lookup_row x (type, kind) []
  | cons row rest ih =>
      rw [lookup_row] at hnew
      split at hnew
      · cases hnew
      next hne =>
      rw [insertRow]
      split
      · exact lookup_row x (type, kind) (row :: rest)
      · rw [lookup_row, lookup_row, ih hnew]
        by_cases hrow : x = row.1
        · rw [if_pos hrow, if_neg fun heq => hne (heq.symm.trans hrow), if_pos hrow]
        · rw [if_neg hrow, if_neg hrow]

/-- The table is built row by row. As long as numbers are new, every row is found afterwards,
and the rows that were there are still found. -/
theorem lookup_foldl {v : Vocabulary} {terms : List (Term × Kind)} :
    ∀ {rows : List (UInt32 × Kind)}, (terms.map fun row => v.id row.1).Nodup →
      (∀ row ∈ terms, rows.lookup (v.id row.1) = none) →
      (∀ row ∈ terms, (terms.foldl (fun rows (t, kind) => insertRow (v.id t) kind rows) rows).lookup
        (v.id row.1) = some row.2) ∧
      ∀ x, (∀ row ∈ terms, x ≠ v.id row.1) →
        (terms.foldl (fun rows (t, kind) => insertRow (v.id t) kind rows) rows).lookup x
          = rows.lookup x := by
  induction terms with
  | nil =>
      intro rows _ _
      exact ⟨fun row hrow => absurd hrow List.not_mem_nil, fun x _ => rfl⟩
  | cons first rest ih =>
      intro rows hnodup hnew
      obtain ⟨hfirst, hrest⟩ := List.nodup_cons.1 hnodup
      have hfresh := hnew first List.mem_cons_self
      have hother : ∀ row ∈ rest, v.id row.1 ≠ v.id first.1 := by
        intro row hrow heq
        exact hfirst (List.mem_map.2 ⟨row, hrow, heq⟩)
      obtain ⟨hfound, hkept⟩ := @ih (insertRow (v.id first.1) first.2 rows) hrest <| by
        intro row hrow
        rw [lookup_insertRow hfresh, if_neg (hother row hrow)]
        exact hnew row (List.mem_cons_of_mem _ hrow)
      refine ⟨fun row hrow => ?_, fun x hx => ?_⟩
      · rcases List.mem_cons.mp hrow with rfl | hrow
        · refine (hkept _ fun other hmem => (hother other hmem).symm).trans ?_
          rw [lookup_insertRow hfresh, if_pos rfl]
        · exact hfound row hrow
      · refine (hkept x fun row hrow => hx row (List.mem_cons_of_mem _ hrow)).trans ?_
        rw [lookup_insertRow hfresh, if_neg (hx first List.mem_cons_self)]

end Kind

theorem Schema.kindOf_id {s : Schema} (hs : s.vocabulary.Distinct) {t : Term} {kind : Kind}
    (ht : (t, kind) ∈ Kind.ofTerm) : s.kindOf (s.id t) = kind := by
  have hrow := (@Kind.lookup_foldl _ _ [] hs fun _ _ => rfl).1 (t, kind) ht
  rw [kindOf, s.kinds_eq, Kind.table, id, hrow]
  rfl

/-- All other types are opaque. -/
theorem Schema.exists_of_kindOf {s : Schema} (hs : s.vocabulary.Distinct) {type : UInt32} {kind : Kind}
    (h : s.kindOf type = kind) (hkind : kind ≠ .chunk) :
    ∃ t, (t, kind) ∈ Kind.ofTerm ∧ type = s.id t := by
  by_cases hrow : ∃ row ∈ Kind.ofTerm, type = s.id row.1
  · obtain ⟨⟨t, other⟩, hmem, rfl⟩ := hrow
    have hother := (kindOf_id hs hmem).symm.trans h
    subst hother
    exact ⟨t, hmem, rfl⟩
  · have hnone := (@Kind.lookup_foldl _ _ [] hs fun _ _ => rfl).2 type fun row hmem heq =>
      hrow ⟨row, hmem, heq⟩
    rw [kindOf, s.kinds_eq, Kind.table, hnone] at h
    exact absurd h.symm hkind

end BlockHost
