import BlockHost.Proofs.Numbering
import Mathlib.Data.List.Destutter
import Mathlib.Data.List.Pairwise
import Mathlib.Data.List.Perm.Basic

/-!
# The table of kinds

The table that gives each type its kind is built by putting every row at its place, and a type is looked up
row by row. The same table comes about by sorting all rows, in whatever way, and leaving out the rows whose
type is already there (`Kind.sorted_eq_table`); and a type can be sought by halving the rows that are left,
because they ascend (`Kind.bisect_eq_lookup`). Both need the types to have different numbers.

They do have different numbers, in whatever registry the vocabulary is interned, since a registry never
gives one number to two names. So the numbers of names, those of the vocabulary, and the kinds of types can
be spoken of together, after any calls on a new registry (`Registry.numbers_and_kinds`).
-/

namespace BlockHost

namespace Kind

/-- Rows with their types in ascending order, each type once. -/
def Ascending (rows : List (UInt32 × Kind)) : Prop :=
  rows.Pairwise fun a b => a.1 < b.1

/-- The rows of a vocabulary, in the order of the terms. -/
def rowsOf (v : Vocabulary) : List (UInt32 × Kind) :=
  ofTerm.map fun (t, kind) => (v.id t, kind)

section Tables

variable {v : Vocabulary} {rows more : List (UInt32 × Kind)} {type : UInt32} {kind : Kind}

theorem mem_insertRow {row : UInt32 × Kind} (h : row ∈ insertRow type kind rows) :
    row = (type, kind) ∨ row ∈ rows := by
  induction rows with
  | nil => exact .inl (List.mem_singleton.1 h)
  | cons first rest ih =>
      rw [insertRow] at h
      split at h
      · exact List.mem_cons.1 h
      split at h
      · exact .inr h
      · rcases List.mem_cons.1 h with rfl | h
        · exact .inr List.mem_cons_self
        · exact (ih h).imp_right (List.mem_cons_of_mem _)

theorem Ascending.insertRow (h : Ascending rows) (type : UInt32) (kind : Kind) :
    Ascending (insertRow type kind rows) := by
  induction rows with
  | nil => exact List.pairwise_singleton _ _
  | cons first rest ih =>
      obtain ⟨hfirst, hrest⟩ := List.pairwise_cons.1 h
      rw [Kind.insertRow]
      split
      · next hlt =>
          refine List.pairwise_cons.2 ⟨fun row hrow => ?_, h⟩
          rcases List.mem_cons.1 hrow with rfl | hrow
          · exact hlt
          · exact UInt32.lt_trans hlt (hfirst row hrow)
      split
      · exact h
      · next hge hne =>
          refine List.pairwise_cons.2 ⟨fun row hrow => ?_, ih hrest⟩
          rcases mem_insertRow hrow with rfl | hrow
          · exact UInt32.lt_of_le_of_ne (UInt32.not_lt.1 hge) (Ne.symm hne)
          · exact hfirst row hrow

theorem insertRow_perm (hnew : ∀ row ∈ rows, type ≠ row.1) :
    (insertRow type kind rows).Perm ((type, kind) :: rows) := by
  induction rows with
  | nil => exact .refl _
  | cons first rest ih =>
      rw [insertRow, if_neg (hnew first List.mem_cons_self)]
      split
      · exact .refl _
      · have hrest := ih fun row hrow => hnew row (List.mem_cons_of_mem _ hrow)
        exact (hrest.cons first).trans (.swap (type, kind) first rest)

/-- Rows of different types, put in one after the other, are all there, and ascend. -/
theorem foldl_insertRow (hrows : Ascending rows) (hnew : ((rows ++ more).map Prod.fst).Nodup) :
    Ascending (more.foldl (fun rows row => insertRow row.1 row.2 rows) rows) ∧
      (more.foldl (fun rows row => insertRow row.1 row.2 rows) rows).Perm (rows ++ more) := by
  induction more generalizing rows with
  | nil =>
      rw [List.append_nil]
      exact ⟨hrows, .refl _⟩
  | cons first rest ih =>
      have hfirst : ∀ row ∈ rows, first.1 ≠ row.1 := by
        intro row hrow heq
        rw [List.map_append, List.map_cons, List.nodup_append] at hnew
        exact hnew.2.2 row.1 (List.mem_map_of_mem hrow) first.1 List.mem_cons_self heq.symm
      have hput : (insertRow first.1 first.2 rows ++ rest).Perm (rows ++ first :: rest) := by
        refine ((insertRow_perm hfirst).append_right rest).trans ?_
        exact List.perm_middle.symm
      obtain ⟨hascends, hperm⟩ := ih (hrows.insertRow first.1 first.2)
        ((hput.map Prod.fst).nodup_iff.2 hnew)
      exact ⟨hascends, hperm.trans hput⟩

theorem table_spec (hv : v.Distinct) : Ascending (table v) ∧ (table v).Perm (rowsOf v) := by
  have htable : table v = (rowsOf v).foldl (fun rows row => insertRow row.1 row.2 rows) [] := by
    rw [table, rowsOf, List.foldl_map]
  have hdistinct : (([] ++ rowsOf v).map Prod.fst).Nodup := by
    rw [List.nil_append, rowsOf, List.map_map]
    exact hv
  rw [htable]
  exact foldl_insertRow List.Pairwise.nil hdistinct

/-- Whoever sorts the rows and leaves out those whose type is already there gets the table. -/
theorem sorted_eq_table (hv : v.Distinct) (hperm : rows.Perm (rowsOf v))
    (hsorted : rows.Pairwise fun a b => a.1 ≤ b.1) :
    rows.destutter (fun a b => a.1 ≠ b.1) = table v := by
  obtain ⟨hascends, htable⟩ := table_spec hv
  have hdistinct : (rows.map Prod.fst).Nodup := by
    refine (hperm.map Prod.fst).nodup_iff.2 ?_
    rw [rowsOf, List.map_map]
    exact hv
  have hne : rows.Pairwise fun a b => a.1 ≠ b.1 := List.pairwise_map.1 hdistinct
  have hstrict : Ascending rows := by
    refine (hsorted.and hne).imp ?_
    rintro a b ⟨hle, hne⟩
    exact UInt32.lt_of_le_of_ne hle hne
  rw [List.destutter_of_isChain _ _ hne.isChain]
  refine (hperm.trans htable.symm).eq_of_pairwise (fun a b _ _ hab hba => ?_) hstrict hascends
  exact absurd hba (UInt32.lt_asymm hab)

/-! ## Lookups -/

theorem Ascending.lookup_eq_some_iff (h : Ascending rows) :
    rows.lookup type = some kind ↔ (type, kind) ∈ rows := by
  induction rows with
  | nil => simp
  | cons first rest ih =>
      obtain ⟨hfirst, hrest⟩ := List.pairwise_cons.1 h
      obtain ⟨found, other⟩ := first
      rw [lookup_row, List.mem_cons, Prod.mk.injEq]
      by_cases htype : type = found
      · subst htype
        have hnone : (type, kind) ∉ rest := fun hmem => UInt32.lt_irrefl type (hfirst _ hmem)
        simp [hnone, eq_comm]
      · simp [htype, ih hrest]

/-- The kind in the row of a type. Of the rows from `base` on, so many as are left, the upper half is gone
on with when the row in the middle is not above the type, and else the lower half. -/
def bisect (rows : List (UInt32 × Kind)) (type : UInt32) (base left : Nat) : Option Kind :=
  if 1 < left then
    match rows[base + left / 2]? with
    | none => none
    | some middle =>
        if type < middle.1 then bisect rows type base (left - left / 2)
        else bisect rows type (base + left / 2) (left - left / 2)
  else
    match rows[base]? with
    | none => none
    | some row => if row.1 = type then some row.2 else none
termination_by left

theorem Ascending.place_lt (h : Ascending rows) {i j : Nat} {a b : UInt32 × Kind}
    (ha : rows[i]? = some a) (hb : rows[j]? = some b) (hab : a.1 < b.1) : i < j := by
  obtain ⟨hi, rfl⟩ := List.getElem?_eq_some_iff.1 ha
  obtain ⟨hj, rfl⟩ := List.getElem?_eq_some_iff.1 hb
  rcases Nat.lt_trichotomy i j with hlt | rfl | hgt
  · exact hlt
  · exact absurd hab (UInt32.lt_irrefl _)
  · exact absurd (List.pairwise_iff_getElem.1 h j i hj hi hgt) (UInt32.lt_asymm hab)

/-- What is sought among the rows that are left is found when it is there. -/
theorem Ascending.bisect_eq_some_iff (h : Ascending rows) {base left : Nat} (hpos : 0 < left)
    (hleft : base + left ≤ rows.length) :
    bisect rows type base left = some kind ↔
      ∃ i, base ≤ i ∧ i < base + left ∧ rows[i]? = some (type, kind) := by
  induction left using Nat.strongRecOn generalizing base with
  | ind left ih =>
      rw [bisect]
      split
      · next hmany =>
          have hmiddle : base + left / 2 < rows.length := by omega
          rw [List.getElem?_eq_getElem hmiddle]
          simp only
          split
          · next hbelow =>
              rw [ih (left - left / 2) (by omega) (by omega) (by omega)]
              constructor
              · rintro ⟨i, hlow, hhigh, hi⟩
                exact ⟨i, hlow, by omega, hi⟩
              · rintro ⟨i, hlow, hhigh, hi⟩
                have hlt := h.place_lt hi (List.getElem?_eq_getElem hmiddle) hbelow
                exact ⟨i, hlow, by omega, hi⟩
          · next habove =>
              rw [ih (left - left / 2) (by omega) (by omega) (by omega)]
              constructor
              · rintro ⟨i, hlow, hhigh, hi⟩
                exact ⟨i, by omega, by omega, hi⟩
              · rintro ⟨i, hlow, hhigh, hi⟩
                -- A row before the middle one has a type below that of the middle one.
                have hge : base + left / 2 ≤ i := by
                  refine Nat.le_of_not_lt fun hlt => habove ?_
                  obtain ⟨hlen, hrow⟩ := List.getElem?_eq_some_iff.1 hi
                  have hordered := List.pairwise_iff_getElem.1 h i _ hlen hmiddle hlt
                  rwa [hrow] at hordered
                exact ⟨i, hge, by omega, hi⟩
      · next hone =>
          obtain rfl : left = 1 := by omega
          have hbase : base < rows.length := by omega
          rw [List.getElem?_eq_getElem hbase]
          simp only
          constructor
          · intro hfound
            split at hfound
            · next htype =>
                cases hfound
                exact ⟨base, Nat.le_refl _, by omega, by rw [List.getElem?_eq_getElem hbase, ← htype]⟩
            · cases hfound
          · rintro ⟨i, hlow, hhigh, hi⟩
            obtain rfl : i = base := by omega
            rw [List.getElem?_eq_getElem hbase, Option.some.injEq] at hi
            rw [hi, if_pos rfl]

/-- Halving finds what going through the rows finds. -/
theorem bisect_eq_lookup (h : Ascending rows) (hpos : 0 < rows.length) (type : UInt32) :
    bisect rows type 0 rows.length = rows.lookup type := by
  ext kind
  rw [h.bisect_eq_some_iff hpos (by omega), h.lookup_eq_some_iff, List.mem_iff_getElem?]
  constructor
  · rintro ⟨i, -, -, hi⟩
    exact ⟨i, hi⟩
  · rintro ⟨i, hi⟩
    have hlt := (List.getElem?_eq_some_iff.1 hi).1
    exact ⟨i, Nat.zero_le i, by omega, hi⟩

end Tables

/-- The table of a schema, and what is found in it. -/
structure Tabled (s : Schema) : Prop where
  count_eq : s.kinds.length = 17
  ascending : Ascending s.kinds
  /-- It is all rows, sorted in whatever way, without repetitions. -/
  sorted : ∀ rows : List (UInt32 × Kind), rows.Perm (rowsOf s.vocabulary) → (rows.Pairwise fun a b => a.1 ≤ b.1) →
    rows.destutter (fun a b => a.1 ≠ b.1) = s.kinds
  bisected : ∀ type, bisect s.kinds type 0 s.kinds.length = s.kinds.lookup type
  kindOf_term : ∀ t kind, (t, kind) ∈ ofTerm → s.kindOf (s.id t) = kind
  kindOf_other : ∀ type, (∀ row ∈ ofTerm, type ≠ s.id row.1) → s.kindOf type = .chunk
  knows_iff : ∀ type, s.knows type = true ↔ ∃ row ∈ ofTerm, type = s.id row.1

theorem tabled {s : Schema} (hs : s.vocabulary.Distinct) : Tabled s := by
  obtain ⟨hascends, hperm⟩ := table_spec hs
  have hcount : (table s.vocabulary).length = 17 := hperm.length_eq
  rw [← s.kinds_eq] at hascends hperm hcount
  have hmem : ∀ type kind, s.kinds.lookup type = some kind ↔
      ∃ t, (t, kind) ∈ ofTerm ∧ type = s.id t := by
    intro type kind
    rw [hascends.lookup_eq_some_iff, hperm.mem_iff, rowsOf, List.mem_map]
    constructor
    · rintro ⟨⟨t, kind⟩, hrow, heq⟩
      cases heq
      exact ⟨t, hrow, rfl⟩
    · rintro ⟨t, hrow, rfl⟩
      exact ⟨(t, kind), hrow, rfl⟩
  constructor
  case count_eq => exact hcount
  case ascending => exact hascends
  case sorted =>
    intro rows hrows hsorted
    rw [s.kinds_eq]
    exact sorted_eq_table hs hrows hsorted
  case bisected => exact fun type => bisect_eq_lookup hascends (by omega) type
  case kindOf_term => exact fun t kind hrow => Schema.kindOf_id hs hrow
  case kindOf_other =>
    intro type hother
    have hnone : s.kinds.lookup type = none := by
      refine Option.eq_none_iff_forall_ne_some.2 fun kind hkind => ?_
      obtain ⟨t, hrow, rfl⟩ := (hmem type kind).1 hkind
      exact hother _ hrow rfl
    rw [Schema.kindOf, hnone, Option.getD_none]
  case knows_iff =>
    intro type
    rw [Schema.knows, Option.isSome_iff_exists]
    constructor
    · rintro ⟨kind, hkind⟩
      obtain ⟨t, hrow, rfl⟩ := (hmem type kind).1 hkind
      exact ⟨(t, kind), hrow, rfl⟩
    · rintro ⟨⟨t, kind⟩, hrow, rfl⟩
      exact ⟨kind, (hmem _ kind).2 ⟨t, hrow, rfl⟩⟩

end Kind

/-! ## The numbers of a vocabulary -/

/-- The twenty-three terms have different numbers, and each has one. -/
structure Vocabulary.Numbered (v : Vocabulary) : Prop where
  count_eq : (Term.all.map v.id).length = 23
  distinct : (Term.all.map v.id).Nodup
  every : ∀ t, t ∈ Term.all
  ne_zero : ∀ t, v.id t ≠ 0

namespace Registry

variable {r : Registry} {uri : String} {id : UInt32}

theorem uri?_of_numbers (hsize : r.size < 2 ^ 32) (h : r.Numbers uri id) :
    id ≠ 0 ∧ r.uri? id = some uri := by
  obtain ⟨i, hi, rfl⟩ := h
  have hlt : i < r.size := (List.getElem?_eq_some_iff.1 hi).1
  have hnumber : (UInt32.ofNat (i + 1)).toNat = i + 1 :=
    UInt32.toNat_ofNat_of_lt' (by show i + 1 < 2 ^ 32; omega)
  have hzero : UInt32.ofNat (i + 1) ≠ 0 := by
    intro heq
    rw [heq, UInt32.toNat_zero] at hnumber
    omega
  refine ⟨hzero, ?_⟩
  rw [uri?, if_neg hzero, hnumber, Nat.add_sub_cancel, hi]

theorem size_ofRegistry_le {seen : List String} (h : r.uris = seen.eraseDups) :
    (Vocabulary.ofRegistry r).2.size ≤ seen.length + 23 := by
  have hlength : (Term.all.map Term.uriText).length = 23 := rfl
  unfold Vocabulary.ofRegistry
  generalize Term.all.map Term.uriText = names at hlength
  obtain ⟨-, huris⟩ := internAll_seen h names
  have hle := length_eraseDups_le (seen ++ names)
  rw [← huris, List.length_append, hlength] at hle
  exact hle

/-- Names, the vocabulary and the kinds of its types, after fewer than 2 ^ 31 calls on a new registry. -/
theorem numbers_and_kinds {uris : List String} (hcalls : uris.length < 2 ^ 31) :
    ∃ ids r v r', Registry.empty.internAll uris = (ids, r) ∧ Vocabulary.ofRegistry r = (v, r') ∧
      Numbered uris ids r ∧ (Directory.empty.internAll uris).1 = ids ∧ v.Numbered ∧
      (∀ t, r'.uri? (v.id t) = some t.uriText) ∧ Kind.Tabled (Schema.ofVocabulary v) := by
  have hnumbered : Numbered uris _ _ := numbered (by omega)
  obtain ⟨hmirrors, -⟩ := Directory.mirrors_empty.internAll uris
  obtain ⟨-, huris⟩ := internAll_empty uris
  generalize Registry.empty.internAll uris = named at hnumbered hmirrors huris
  obtain ⟨ids, r⟩ := named
  have hle : (Vocabulary.ofRegistry r).2.size ≤ uris.length + 23 := size_ofRegistry_le huris
  have hsize : (Vocabulary.ofRegistry r).2.size < 2 ^ 32 := by omega
  have hinjective := Vocabulary.id_injective hsize
  have hnames := fun t => uri?_of_numbers hsize (Vocabulary.numbers_ofRegistry r t)
  have hterms : Term.all.Nodup := by decide
  generalize hknown : Vocabulary.ofRegistry r = known at hinjective hnames
  obtain ⟨v, r'⟩ := known
  refine ⟨ids, r, v, r', rfl, hknown, hnumbered, hmirrors, ?_, fun t => (hnames t).2, ?_⟩
  · exact ⟨rfl, hterms.map hinjective, Term.mem_all, fun t => (hnames t).1⟩
  · exact Kind.tabled (Vocabulary.distinct_of_injective hinjective)

/-- Two names of the vocabulary have been seen before, in another order, and somebody else's name twice. -/
theorem numbers_and_kinds_seen :
    let uris := ["urn:a", Term.chunk.uriText, "urn:a", Term.int.uriText]
    uris.length < 2 ^ 31 ∧
    ∃ ids r v r', Registry.empty.internAll uris = (ids, r) ∧ Vocabulary.ofRegistry r = (v, r') ∧
      ids = [1, 2, 1, 3] ∧ v.id .chunk = 2 ∧ v.id .int = 3 ∧ v.id .long = 4 ∧
      Numbered uris ids r ∧ (Directory.empty.internAll uris).1 = ids ∧ v.Numbered ∧
      (∀ t, r'.uri? (v.id t) = some t.uriText) ∧ Kind.Tabled (Schema.ofVocabulary v) := by
  intro uris
  have hlength : uris.length < 2 ^ 31 := by decide
  have hids : (Registry.empty.internAll uris).1 = [1, 2, 1, 3] := by decide +kernel
  have hterms : [Term.chunk, Term.int, Term.long].map
      (Vocabulary.ofRegistry (Registry.empty.internAll uris).2).1.id = [2, 3, 4] := by
    decide +kernel
  obtain ⟨ids, r, v, r', hnamed, hknown, hall⟩ := numbers_and_kinds hlength
  rw [hnamed] at hids hterms
  simp only [hknown, List.map_cons, List.map_nil, List.cons.injEq, and_true] at hterms
  obtain ⟨hchunk, hint, hlong⟩ := hterms
  exact ⟨hlength, ids, r, v, r', hnamed, hknown, hids, hchunk, hint, hlong, hall⟩

end Registry

end BlockHost
