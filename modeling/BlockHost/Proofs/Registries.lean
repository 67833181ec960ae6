import BlockHost.Proofs.ReadingBack
import Mathlib.Data.List.Nodup

/-!
# Names keep their numbers

A registry only ever grows behind the names that it has, so a name that has got a number keeps it
(`Registry.Numbers.mono`). As long as all numbers fit in 32 bits, no number stands for two names
(`Registry.Numbers.unique`). The vocabulary has numbers for its terms in this way, whatever had been
interned before it, and so no two terms have the same one (`Vocabulary.id_injective`).
-/

namespace BlockHost

namespace Registry

/-- The number of a name is its place in the registry, counted from one. -/
def Numbers (r : Registry) (uri : String) (id : UInt32) : Prop :=
  ∃ i, r.uris[i]? = some uri ∧ id = UInt32.ofNat (i + 1)

variable {r r' : Registry} {uri other : String} {id : UInt32}

theorem Numbers.mono (h : r.Numbers uri id) (hgrown : r.uris <+: r'.uris) : r'.Numbers uri id := by
  obtain ⟨i, hi, hid⟩ := h
  obtain ⟨more, hmore⟩ := hgrown
  have hlt := (List.getElem?_eq_some_iff.1 hi).1
  exact ⟨i, by rw [← hmore, List.getElem?_append_left hlt, hi], hid⟩

theorem Numbers.unique (hsize : r.size < 2 ^ 32) (h : r.Numbers uri id) (hother : r.Numbers other id) :
    uri = other := by
  obtain ⟨i, hi, hid⟩ := h
  obtain ⟨j, hj, hid'⟩ := hother
  have hilt : i < r.size := (List.getElem?_eq_some_iff.1 hi).1
  have hjlt : j < r.size := (List.getElem?_eq_some_iff.1 hj).1
  have hsame := congrArg UInt32.toNat (hid.symm.trans hid')
  rw [UInt32.toNat_ofNat_of_lt' (by show i + 1 < 2 ^ 32; omega),
    UInt32.toNat_ofNat_of_lt' (by show j + 1 < 2 ^ 32; omega)] at hsame
  obtain rfl : i = j := by omega
  exact Option.some.inj (hi.symm.trans hj)

theorem numbers_of_find? (h : r.find? uri = some id) : r.Numbers uri id := by
  obtain ⟨i, hi, rfl⟩ := Option.map_eq_some_iff.1 h
  obtain ⟨hlt, huri, -⟩ := List.findIdx?_eq_some_iff_getElem.1 hi
  refine ⟨i, ?_, rfl⟩
  rw [List.getElem?_eq_getElem hlt, beq_iff_eq.1 huri]

/-- Interning a name numbers it, and takes no number back. -/
theorem intern_numbers (r : Registry) (uri : String) :
    r.uris <+: (r.intern uri).2.uris ∧ (r.intern uri).2.Numbers uri (r.intern uri).1 := by
  rw [intern]
  cases h : r.find? uri with
  | some id => exact ⟨List.prefix_refl _, numbers_of_find? h⟩
  | none =>
      refine ⟨List.prefix_append _ _, r.uris.length, ?_, rfl⟩
      exact List.getElem?_concat_length

/-- So does interning many. -/
theorem internAll_numbers (r : Registry) (uris : List String) :
    r.uris <+: (r.internAll uris).2.uris ∧ (r.internAll uris).1.length = uris.length ∧
      ∀ i uri, uris[i]? = some uri →
        (r.internAll uris).2.Numbers uri ((r.internAll uris).1.getD i 0) := by
  induction uris generalizing r with
  | nil => exact ⟨List.prefix_refl _, rfl, by simp⟩
  | cons first rest ih =>
      obtain ⟨hfirst, hnumber⟩ := r.intern_numbers first
      obtain ⟨hrest, hlength, hnumbers⟩ := ih (r.intern first).2
      refine ⟨hfirst.trans hrest, congrArg (· + 1) hlength, fun i uri hi => ?_⟩
      cases i with
      | zero =>
          cases hi
          exact hnumber.mono hrest
      | succ i => exact hnumbers i uri hi

end Registry

theorem Term.mem_all (t : Term) : t ∈ all := by
  cases t <;> decide

theorem Term.uriText_injective : Function.Injective uriText := by
  have hnodup : (all.map uriText).Nodup := by decide
  intro t u h
  exact List.inj_on_of_nodup_map hnodup t.mem_all u.mem_all h

namespace Vocabulary

theorem numbers_ofRegistry (r : Registry) (t : Term) :
    (ofRegistry r).2.Numbers t.uriText ((ofRegistry r).1.id t) := by
  have hplace : (Term.all.map Term.uriText)[Term.all.idxOf t]? = some t.uriText := by
    rw [List.getElem?_map, List.getElem?_idxOf t.mem_all, Option.map_some]
  unfold ofRegistry
  generalize Term.all.map Term.uriText = uris at hplace
  exact (r.internAll_numbers uris).2.2 _ _ hplace

/-- No two terms have the same number. -/
theorem id_injective {r : Registry} (hsize : (ofRegistry r).2.size < 2 ^ 32) :
    Function.Injective (ofRegistry r).1.id := by
  intro t u h
  have hother := numbers_ofRegistry r u
  rw [← h] at hother
  exact Term.uriText_injective ((numbers_ofRegistry r t).unique hsize hother)

theorem distinct_of_injective {v : Vocabulary} (h : Function.Injective v.id) : v.Distinct := by
  have hterms : (Kind.ofTerm.map Prod.fst).Nodup := by decide
  have hids := hterms.map h
  rwa [List.map_map] at hids

end Vocabulary

end BlockHost
