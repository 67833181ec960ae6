import BlockHost.Proofs.Registries
import Mathlib.Data.List.Induction
import Mathlib.Logic.Function.Basic

/-!
# Names in the order of first sight

A row of calls on a registry, some of them with names that have been seen before, leaves the names without
their repetitions, in the order of first sight, and every call answers with the place of its name among
these (`Registry.internAll_seen`). All that a registry promises follows from where names stand
(`Registry.numbered`): which calls have the same answer, which numbers are in use, and what a number
stands for.

A search through all names takes longer and longer. A `Directory` keeps the number of each name in a table
beside the list, and so has to keep two things in step. It answers as the registry does
(`Directory.Mirrors.internAll`).
-/

namespace BlockHost

namespace Registry

/-- The number of a name, by its place in a list. -/
def numberIn (names : List String) (uri : String) : UInt32 :=
  UInt32.ofNat (names.idxOf uri + 1)

section Seen

variable {r : Registry} {uri other : String} {uris seen : List String}

theorem find?_of_mem (h : uri ∈ r.uris) : r.find? uri = some (numberIn r.uris uri) := by
  have hplace : r.uris.findIdx? (· == uri) = some (r.uris.idxOf uri) :=
    List.findIdx?_eq_some_iff_findIdx_eq.2 ⟨List.idxOf_lt_length_of_mem h, rfl⟩
  rw [find?, hplace]
  rfl

theorem find?_of_not_mem (h : uri ∉ r.uris) : r.find? uri = none := by
  have hplace : r.uris.findIdx? (· == uri) = none := by
    simp only [List.findIdx?_eq_none_iff, beq_eq_false_iff_ne]
    intro seen hseen heq
    exact h (heq ▸ hseen)
  rw [find?, hplace]
  rfl

theorem intern_of_mem (h : uri ∈ r.uris) : r.intern uri = (numberIn r.uris uri, r) := by
  rw [intern, find?_of_mem h]

theorem intern_of_not_mem (h : uri ∉ r.uris) :
    r.intern uri = (UInt32.ofNat (r.size + 1), ⟨r.uris ++ [uri]⟩) := by
  rw [intern, find?_of_not_mem h]

/-! ## Places -/

theorem eraseDups_concat (seen : List String) (uri : String) :
    (seen ++ [uri]).eraseDups = if uri ∈ seen then seen.eraseDups else seen.eraseDups ++ [uri] := by
  rw [List.eraseDups_append]
  by_cases h : uri ∈ seen
  · simp [List.removeAll, h]
  · simp [List.removeAll, h, List.eraseDups_cons]

/-- Names that are seen later are put behind the others, so nobody's place changes. -/
theorem numberIn_append (h : uri ∈ seen) (more : List String) :
    numberIn (seen ++ more).eraseDups uri = numberIn seen.eraseDups uri := by
  rw [numberIn, numberIn, List.eraseDups_append, List.idxOf_append,
    if_pos (List.mem_eraseDups.2 h)]

theorem toNat_numberIn (hsize : seen.length < 2 ^ 32) (h : uri ∈ seen) :
    (numberIn seen uri).toNat = seen.idxOf uri + 1 ∧ (numberIn seen uri).toNat ≤ seen.length := by
  have hlt := List.idxOf_lt_length_of_mem h
  have hnumber : (numberIn seen uri).toNat = seen.idxOf uri + 1 :=
    UInt32.toNat_ofNat_of_lt' (by show seen.idxOf uri + 1 < 2 ^ 32; omega)
  omega

/-! ## Calls -/

theorem intern_seen (h : r.uris = seen.eraseDups) (uri : String) :
    (r.intern uri).1 = numberIn (seen ++ [uri]).eraseDups uri ∧
      (r.intern uri).2.uris = (seen ++ [uri]).eraseDups := by
  rw [eraseDups_concat]
  by_cases hmem : uri ∈ seen
  · have hold : uri ∈ r.uris := by
      rw [h, List.mem_eraseDups]
      exact hmem
    rw [intern_of_mem hold, if_pos hmem, ← h]
    exact ⟨rfl, rfl⟩
  · have hnew : uri ∉ r.uris := by
      rw [h, List.mem_eraseDups]
      exact hmem
    have hplace : (r.uris ++ [uri]).idxOf uri = r.uris.length := by
      simp [List.idxOf_append, hnew]
    rw [intern_of_not_mem hnew, if_neg hmem, ← h, numberIn, hplace]
    exact ⟨rfl, rfl⟩

/-- What calls with the given names leave when others have been seen before, and what they answer. -/
theorem internAll_seen (h : r.uris = seen.eraseDups) (uris : List String) :
    (r.internAll uris).1 = uris.map (numberIn (seen ++ uris).eraseDups) ∧
      (r.internAll uris).2.uris = (seen ++ uris).eraseDups := by
  induction uris generalizing r seen with
  | nil => simp [internAll, h]
  | cons uri rest ih =>
      obtain ⟨hid, huris⟩ := intern_seen h uri
      obtain ⟨hids, hall⟩ := ih huris
      have hrow : seen ++ uri :: rest = seen ++ [uri] ++ rest := by simp
      have hmem : uri ∈ seen ++ [uri] := by simp
      rw [hrow]
      refine ⟨?_, hall⟩
      calc (r.internAll (uri :: rest)).1
        _ = (r.intern uri).1 :: ((r.intern uri).2.internAll rest).1 := rfl
        _ = numberIn (seen ++ [uri]).eraseDups uri
              :: rest.map (numberIn (seen ++ [uri] ++ rest).eraseDups) := by rw [hid, hids]
        _ = (uri :: rest).map (numberIn (seen ++ [uri] ++ rest).eraseDups) := by
          rw [List.map_cons, numberIn_append hmem rest]

/-- Calls on a new registry. -/
theorem internAll_empty (uris : List String) :
    (empty.internAll uris).1 = uris.map (numberIn uris.eraseDups) ∧
      (empty.internAll uris).2.uris = uris.eraseDups := by
  have hnone : empty.uris = List.eraseDups [] := rfl
  exact internAll_seen hnone uris

end Seen

/-! ## What the numbers say -/

/-- The answers of a row of calls on a new registry, and the registry that they leave. -/
structure Numbered (uris : List String) (ids : List UInt32) (r : Registry) : Prop where
  answered : ids.length = uris.length
  /-- The same name has the same number, and another name has another one. -/
  same_iff : ∀ (i j : Nat) (u w : String) (a b : UInt32), uris[i]? = some u → ids[i]? = some a →
    uris[j]? = some w → ids[j]? = some b → (a = b ↔ u = w)
  /-- The names stand in the order of first sight. -/
  order : r.uris = uris.eraseDups
  /-- A name that is seen for the first time gets one number more than there were before the call. -/
  first : ∀ (i : Nat) (u : String) (a : UInt32), uris[i]? = some u → ids[i]? = some a →
    u ∉ uris.take i → a.toNat = (empty.internAll (uris.take i)).2.size + 1
  /-- The numbers in use are those from one on, as many as there are names. -/
  used : ∀ n, (∃ a ∈ ids, a.toNat = n) ↔ 1 ≤ n ∧ n ≤ r.size
  /-- A number stands for the name that it was given to, and any other number for nothing. -/
  names : ∀ (a : UInt32) (u : String),
    r.uri? a = some u ↔ ∃ i : Nat, uris[i]? = some u ∧ ids[i]? = some a
  /-- However many calls follow, a name that has been seen is answered with its old number. -/
  stays : ∀ (more : List String) (i : Nat) (u : String) (a : UInt32), uris[i]? = some u →
    ids[i]? = some a → (r.internAll more).2.intern u = (a, (r.internAll more).2)

section Numbered

variable {uris : List String}

theorem length_eraseDups_le (uris : List String) : uris.eraseDups.length ≤ uris.length := by
  induction uris using List.reverseRecOn with
  | nil => simp
  | append_singleton seen uri ih =>
      rw [eraseDups_concat]
      split
      · simp only [List.length_append]
        omega
      · simp only [List.length_append]
        omega

theorem nodup_eraseDups (uris : List String) : uris.eraseDups.Nodup := by
  induction uris using List.reverseRecOn with
  | nil => exact List.nodup_nil
  | append_singleton seen uri ih =>
      rw [eraseDups_concat]
      split
      · exact ih
      · next hnew =>
          refine ih.append (List.nodup_singleton uri) ?_
          simpa using hnew

/-- A number is that of a name when it leads to the name's place. -/
theorem eq_numberIn_iff {names : List String} (hsize : names.length < 2 ^ 32) {uri : String}
    (h : uri ∈ names) (id : UInt32) :
    id = numberIn names uri ↔ id ≠ 0 ∧ id.toNat - 1 = names.idxOf uri := by
  obtain ⟨hnumber, -⟩ := toNat_numberIn hsize h
  rw [← UInt32.toNat_inj, hnumber, Ne, ← UInt32.toNat_inj, UInt32.toNat_zero]
  omega

theorem numbered (hsize : uris.length < 2 ^ 32) :
    Numbered uris (empty.internAll uris).1 (empty.internAll uris).2 := by
  obtain ⟨hids, huris⟩ := internAll_empty uris
  have hnames : uris.eraseDups.length < 2 ^ 32 := by
    have hle := length_eraseDups_le uris
    omega
  have hanswer : ∀ (i : Nat) (u : String) (a : UInt32), uris[i]? = some u →
      (empty.internAll uris).1[i]? = some a → u ∈ uris.eraseDups ∧ a = numberIn uris.eraseDups u := by
    intro i u a hu ha
    rw [hids, List.getElem?_map, hu, Option.map_some, Option.some.injEq] at ha
    exact ⟨List.mem_eraseDups.2 (List.mem_of_getElem? hu), ha.symm⟩
  constructor
  case answered => rw [hids, List.length_map]
  case order => exact huris
  case same_iff =>
    intro i j u w a b hu ha hw hb
    obtain ⟨hmem, rfl⟩ := hanswer i u a hu ha
    obtain ⟨hmem', rfl⟩ := hanswer j w b hw hb
    obtain ⟨hnumber, -⟩ := toNat_numberIn hnames hmem
    obtain ⟨hnumber', -⟩ := toNat_numberIn hnames hmem'
    rw [← UInt32.toNat_inj, hnumber, hnumber', Nat.add_right_cancel_iff, List.idxOf_inj hmem]
  case first =>
    intro i u a hu ha hnew
    obtain ⟨hmem, rfl⟩ := hanswer i u a hu ha
    have hsplit : uris = uris.take i ++ [u] ++ uris.drop (i + 1) := by
      obtain ⟨hlt, rfl⟩ := List.getElem?_eq_some_iff.1 hu
      simp
    have hlast : u ∈ uris.take i ++ [u] := by simp
    obtain ⟨-, hbefore⟩ := internAll_empty (uris.take i)
    have hshort : (uris.take i ++ [u]).eraseDups.length < 2 ^ 32 := by
      have hle := length_eraseDups_le (uris.take i ++ [u])
      have hlt := (List.getElem?_eq_some_iff.1 hu).1
      simp only [List.length_append, List.length_take, List.length_singleton] at hle
      omega
    obtain ⟨hnumber, -⟩ := toNat_numberIn hshort (List.mem_eraseDups.2 hlast)
    have hplace : (uris.take i ++ [u]).eraseDups.idxOf u = (uris.take i).eraseDups.length := by
      rw [eraseDups_concat, if_neg hnew]
      simp [List.idxOf_append, hnew]
    have hstays : numberIn uris.eraseDups u = numberIn (uris.take i ++ [u]).eraseDups u := by
      rw [← numberIn_append hlast (uris.drop (i + 1)), ← hsplit]
    rw [hstays, hnumber, hplace, size, hbefore]
  case used =>
    intro n
    rw [size, huris, hids]
    constructor
    · rintro ⟨a, ha, rfl⟩
      obtain ⟨u, hu, rfl⟩ := List.mem_map.1 ha
      obtain ⟨hnumber, hle⟩ := toNat_numberIn hnames (List.mem_eraseDups.2 hu)
      omega
    · rintro ⟨hpos, hle⟩
      have hlt : n - 1 < uris.eraseDups.length := by omega
      have hmem := List.getElem_mem hlt
      obtain ⟨hnumber, -⟩ := toNat_numberIn hnames hmem
      rw [(nodup_eraseDups uris).idxOf_getElem] at hnumber
      exact ⟨_, List.mem_map_of_mem (List.mem_eraseDups.1 hmem), by omega⟩
  case names =>
    intro a u
    rw [uri?, huris]
    constructor
    · intro hname
      split at hname
      · cases hname
      next hzero =>
      obtain ⟨hlt, rfl⟩ := List.getElem?_eq_some_iff.1 hname
      have hmem := List.getElem_mem hlt
      obtain ⟨i, hi⟩ := List.mem_iff_getElem?.1 (List.mem_eraseDups.1 hmem)
      have hplace := (nodup_eraseDups uris).idxOf_getElem (a.toNat - 1) hlt
      have hnumber := (eq_numberIn_iff hnames hmem a).2 ⟨hzero, hplace.symm⟩
      refine ⟨i, hi, ?_⟩
      rw [hids, List.getElem?_map, hi, Option.map_some, ← hnumber]
    · rintro ⟨i, hu, ha⟩
      obtain ⟨hmem, hnumber⟩ := hanswer i u a hu ha
      obtain ⟨hzero, hplace⟩ := (eq_numberIn_iff hnames hmem a).1 hnumber
      rw [if_neg hzero, hplace, List.getElem?_idxOf hmem]
  case stays =>
    intro more i u a hu ha
    obtain ⟨-, rfl⟩ := hanswer i u a hu ha
    obtain ⟨-, hafter⟩ := internAll_seen huris more
    have hseen := List.mem_of_getElem? hu
    have hmem : u ∈ ((empty.internAll uris).2.internAll more).2.uris := by
      rw [hafter, List.mem_eraseDups]
      exact List.mem_append_left more hseen
    rw [intern_of_mem hmem, hafter, numberIn_append hseen]

end Numbered

end Registry

/-! ## Numbers in a table -/

/-- Names and their numbers, kept twice: a table of the numbers, and a list of the names. -/
structure Directory where
  numbers : String → Option UInt32
  uris : List String

namespace Directory

/-- No name has been seen. -/
def empty : Directory := ⟨fun _ => none, []⟩

/-- The number of a name, a new one when the name is seen for the first time. -/
def intern (d : Directory) (uri : String) : UInt32 × Directory :=
  match d.numbers uri with
  | some id => (id, d)
  | none =>
      let uris := d.uris ++ [uri]
      let id := UInt32.ofNat uris.length
      (id, ⟨Function.update d.numbers uri (some id), uris⟩)

/-- Interns names one after the other. -/
def internAll (d : Directory) : List String → List UInt32 × Directory
  | [] => ([], d)
  | uri :: rest =>
      let (id, d) := d.intern uri
      let (ids, d) := d.internAll rest
      (id :: ids, d)

/-- The table and the list both say what the registry says. -/
structure Mirrors (d : Directory) (r : Registry) : Prop where
  uris_eq : d.uris = r.uris
  numbers_eq : ∀ uri, d.numbers uri = r.find? uri

variable {d : Directory} {r : Registry}

theorem mirrors_empty : empty.Mirrors .empty := ⟨rfl, fun _ => rfl⟩

theorem Mirrors.intern (h : d.Mirrors r) (uri : String) :
    (d.intern uri).1 = (r.intern uri).1 ∧ (d.intern uri).2.Mirrors (r.intern uri).2 := by
  rw [Directory.intern, h.numbers_eq]
  by_cases hmem : uri ∈ r.uris
  · rw [Registry.find?_of_mem hmem, Registry.intern_of_mem hmem]
    exact ⟨rfl, h⟩
  · rw [Registry.find?_of_not_mem hmem, Registry.intern_of_not_mem hmem]
    simp only [h.uris_eq, List.length_append, List.length_singleton]
    refine ⟨rfl, rfl, fun other => ?_⟩
    show Function.update d.numbers uri _ other = _
    by_cases hother : other = uri
    · subst hother
      have hplace : (r.uris ++ [other]).idxOf other = r.uris.length := by
        simp [List.idxOf_append, hmem]
      rw [Function.update_self, Registry.find?_of_mem (by simp), Registry.numberIn, hplace]
    · rw [Function.update_of_ne hother, h.numbers_eq]
      by_cases hold : other ∈ r.uris
      · rw [Registry.find?_of_mem hold, Registry.find?_of_mem (List.mem_append_left _ hold),
          Registry.numberIn, Registry.numberIn, List.idxOf_append, if_pos hold]
      · rw [Registry.find?_of_not_mem hold, Registry.find?_of_not_mem (by simp [hold, hother])]

theorem Mirrors.internAll (h : d.Mirrors r) (uris : List String) :
    (d.internAll uris).1 = (r.internAll uris).1 ∧
      (d.internAll uris).2.Mirrors (r.internAll uris).2 := by
  induction uris generalizing d r with
  | nil => exact ⟨rfl, h⟩
  | cons uri rest ih =>
      obtain ⟨hid, hfirst⟩ := h.intern uri
      obtain ⟨hids, hall⟩ := ih hfirst
      exact ⟨congrArg₂ List.cons hid hids, hall⟩

end Directory

end BlockHost
