import BlockHost.Diagnostics
import BlockHost.Proofs.CheckedReading

/-!
# Bounded text with every sum and range checked

The text of an error goes into a buffer of fixed size, and what does not fit is cut off between two
characters. The cut is sought from behind, one byte at a time, and a search that went past the start of
the text would be brought down. It ends before that, since the start is a boundary
(`Checked.boundary_eq`), so an error of any length can be told (`Checked.push_eq`).

`BoundedText.push` takes characters as long as they fit. That this is the same cut needs two facts:
at a boundary exactly the bytes in front of it are taken, and between two boundaries one more byte is
of no use.
-/

namespace BlockHost

namespace Checked

/-- Whether a character begins at a place in the bytes of a text, or the text ends there. -/
def isBoundary : List Char → Nat → Bool
  | _, 0 => true
  | [], _ + 1 => false
  | c :: cs, place + 1 =>
      c.utf8Size ≤ place + 1 && isBoundary cs (place + 1 - c.utf8Size)

/-- The last boundary that is not behind a place, which is sought byte by byte. -/
def boundary (cs : List Char) : Nat → Except Fault Nat
  | 0 => if isBoundary cs 0 then .ok 0 else .error .subtraction
  | place + 1 => if isBoundary cs (place + 1) then .ok (place + 1) else boundary cs place

/-- Adds as much of a text as there is room for. -/
def push {capacity : Nat} (t : BoundedText capacity) (added : String) :
    Except Fault (BoundedText capacity) := do
  let cs := added.toList
  let room ← sub capacity t.size
  let taken ← boundary cs (min (Text.byteSize cs) room)
  let stop ← Fault.checkedAdd t.size taken
  if capacity < stop then throw (.range capacity t.size taken)
  let _ ← range (Utf8.encode added) 0 taken
  return { t.push (String.ofList (Text.fitting taken cs)) with
    cut := t.cut || taken < Text.byteSize cs }

/-- Takes note of an error, which may disable the script. -/
def record (d : Diagnostics) (text : String) (disabling : Bool) : Except Fault Diagnostics := do
  return { d with error := ← push .empty text
                  errorPending := true
                  disabled := d.disabled || disabling }

section Texts

open Text

theorem byteSize_of_isBoundary {cs : List Char} {place : Nat} (h : isBoundary cs place = true) :
    byteSize (fitting place cs) = place := by
  induction cs generalizing place with
  | nil =>
      cases place with
      | zero => rfl
      | succ place => cases h
  | cons c cs ih =>
      cases place with
      | zero =>
          have hpos := c.utf8Size_pos
          rw [fitting, if_neg (by omega)]
          rfl
      | succ place =>
          obtain ⟨hle, hrest⟩ := Bool.and_eq_true_iff.1 h
          have hle := of_decide_eq_true hle
          rw [fitting, if_pos hle, byteSize_cons, ih hrest]
          omega

/-- Between two boundaries one more byte is of no use. -/
theorem fitting_of_not_isBoundary {cs : List Char} {place : Nat}
    (h : isBoundary cs (place + 1) = false) : fitting (place + 1) cs = fitting place cs := by
  induction cs generalizing place with
  | nil => rfl
  | cons c cs ih =>
      rw [isBoundary, Bool.and_eq_false_iff] at h
      rw [fitting, fitting]
      by_cases hle : c.utf8Size ≤ place + 1
      · have hrest := h.resolve_left (by simp [hle])
        obtain ⟨rest, hplace⟩ : ∃ rest, place + 1 - c.utf8Size = rest + 1 := by
          refine Nat.exists_eq_succ_of_ne_zero fun hzero => ?_
          rw [hzero, isBoundary] at hrest
          cases hrest
        rw [hplace] at hrest
        rw [if_pos hle, if_pos (by omega), hplace, ih hrest, show place - c.utf8Size = rest by omega]
      · rw [if_neg hle, if_neg (by omega)]

theorem boundary_eq (cs : List Char) (place : Nat) :
    boundary cs place = .ok (byteSize (fitting place cs)) := by
  induction place with
  | zero =>
      have hstart : isBoundary cs 0 = true := by cases cs <;> rfl
      rw [boundary, byteSize_of_isBoundary hstart]
      exact if_pos hstart
  | succ place ih =>
      rw [boundary]
      cases h : isBoundary cs (place + 1) with
      | true => rw [if_pos rfl, byteSize_of_isBoundary h]
      | false => rw [if_neg Bool.false_ne_true, ih, fitting_of_not_isBoundary h]

theorem fitting_of_le {room : Nat} {cs : List Char} (h : byteSize cs ≤ room) :
    fitting room cs = cs := by
  induction cs generalizing room with
  | nil => rfl
  | cons c cs ih =>
      rw [byteSize_cons] at h
      rw [fitting, if_pos (by omega), ih (by omega)]

theorem fitting_begins (room : Nat) (cs : List Char) : fitting room cs <+: cs := by
  induction cs generalizing room with
  | nil => exact List.prefix_rfl
  | cons c cs ih =>
      rw [fitting]
      split
      · exact List.cons_prefix_cons.2 ⟨rfl, ih _⟩
      · exact List.nil_prefix

/-- More room than the whole text takes is of no use. -/
theorem fitting_min (room : Nat) (cs : List Char) :
    fitting (min (byteSize cs) room) cs = fitting room cs := by
  rcases Nat.le_total (byteSize cs) room with hle | hle
  · rw [Nat.min_eq_left hle, fitting_of_le (Nat.le_refl _), fitting_of_le hle]
  · rw [Nat.min_eq_right hle]

/-- What fits is what fits in exactly its own room. -/
theorem fitting_byteSize (room : Nat) (cs : List Char) :
    fitting (byteSize (fitting room cs)) cs = fitting room cs := by
  induction cs generalizing room with
  | nil => rfl
  | cons c cs ih =>
      have hpos := c.utf8Size_pos
      by_cases hle : c.utf8Size ≤ room
      · have hkept : fitting room (c :: cs) = c :: fitting (room - c.utf8Size) cs := if_pos hle
        rw [hkept, byteSize_cons, fitting, if_pos (Nat.le_add_right _ _), Nat.add_sub_cancel_left,
          ih]
      · have hnone : fitting room (c :: cs) = [] := if_neg hle
        rw [hnone, byteSize_nil, fitting, if_neg (by omega)]

/-- More is left out exactly when bytes are left out. -/
theorem byteSize_fitting_lt (room : Nat) (cs : List Char) :
    byteSize (fitting room cs) < byteSize cs ↔ (fitting room cs).length < cs.length := by
  obtain ⟨rest, heq⟩ := fitting_begins room cs
  generalize fitting room cs = kept at heq
  subst heq
  rw [byteSize_append, List.length_append]
  cases rest with
  | nil => exact iff_of_false (Nat.lt_irrefl _) (Nat.lt_irrefl _)
  | cons c rest =>
      have hpos := c.utf8Size_pos
      rw [byteSize_cons, List.length_cons]
      omega

theorem length_encode (text : String) : (Utf8.encode text).length = byteSize text.toList := by
  rw [Utf8.encode, Utf8.encodeChars, List.length_flatMap, byteSize]
  simp only [Utf8.length_encodeChar]

theorem push_eq {capacity : Nat} (hcapacity : capacity < 2 ^ 64) (t : BoundedText capacity)
    (added : String) : push t added = .ok (t.push added) := by
  have hsize := t.size_le
  have hkept := byteSize_fitting_le (capacity - t.size) added.toList
  have hbytes : byteSize (fitting (capacity - t.size) added.toList) ≤ (Utf8.encode added).length := by
    obtain ⟨rest, heq⟩ := fitting_begins (capacity - t.size) added.toList
    rw [length_encode, ← congrArg byteSize heq, byteSize_append]
    exact Nat.le_add_right _ _
  simp only [push, sub_eq hsize, boundary_eq, fitting_min, bind, Except.bind,
    add_eq (show t.size + byteSize (fitting (capacity - t.size) added.toList) < 2 ^ 64 by omega),
    if_neg (show ¬ capacity < t.size + byteSize (fitting (capacity - t.size) added.toList) by omega),
    range_eq (Nat.zero_le _) hbytes, fitting_byteSize]
  simp only [pure, Except.pure, BoundedText.push, String.toList_ofList, fitting_of_le hkept,
    byteSize_fitting_lt]

theorem record_eq (d : Diagnostics) (text : String) (disabling : Bool) :
    record d text disabling = .ok (d.record text disabling) := by
  rw [record, push_eq (by decide)]
  rfl

end Texts

end Checked

end BlockHost
