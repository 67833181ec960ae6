import BlockHost.Fault
import BlockHost.Text.Lines

/-!
# Bounded text

A text that never grows past a fixed number of bytes. What is pushed onto it is cut at a character
boundary where the room ends, and the cut is remembered for as long as the text is. A cut in front of
a wide character can leave a few bytes of room, which a later push may still fill.

`BoundedText.byteSize_chars_le` says that a text stays within its capacity, and `BoundedText.chars_push`
what a push adds to it.
-/

namespace BlockHost

namespace Text

/-- The characters of the longest prefix that takes at most `room` bytes. -/
def fitting : (room : Nat) → List Char → List Char
  | _, [] => []
  | room, c :: cs => if c.utf8Size ≤ room then c :: fitting (room - c.utf8Size) cs else []

/-- The number of bytes that characters take. -/
def byteSize (cs : List Char) : Nat :=
  (cs.map Char.utf8Size).sum

@[simp] theorem byteSize_nil : byteSize [] = 0 := rfl

@[simp] theorem byteSize_cons (c : Char) (cs : List Char) :
    byteSize (c :: cs) = c.utf8Size + byteSize cs := by
  simp [byteSize]

@[simp] theorem byteSize_append (cs ds : List Char) :
    byteSize (cs ++ ds) = byteSize cs + byteSize ds := by
  simp [byteSize]

@[simp] theorem byteSize_reverse (cs : List Char) : byteSize cs.reverse = byteSize cs := by
  simp [byteSize, List.sum_reverse]

theorem byteSize_fitting_le (room : Nat) (cs : List Char) : byteSize (fitting room cs) ≤ room := by
  induction cs generalizing room with
  | nil => simp [fitting]
  | cons c cs ih =>
      simp only [fitting]
      split
      · have := ih (room - c.utf8Size)
        simp only [byteSize_cons]
        omega
      · simp

/-- Where a prefix has no room already, nothing behind it has. -/
theorem fitting_append {room : Nat} {cs : List Char} (h : room < byteSize cs) (ds : List Char) :
    fitting room (cs ++ ds) = fitting room cs := by
  induction cs generalizing room with
  | nil => simp at h
  | cons c cs ih =>
      simp only [byteSize_cons] at h
      simp only [List.cons_append, fitting]
      split
      · rw [ih (by omega)]
      · rfl

theorem length_fitting_lt {room : Nat} {cs : List Char} (h : room < byteSize cs) :
    (fitting room cs).length < cs.length := by
  induction cs generalizing room with
  | nil => simp at h
  | cons c cs ih =>
      simp only [byteSize_cons] at h
      simp only [fitting]
      split
      · have hlt : room - c.utf8Size < byteSize cs := by omega
        have := ih hlt
        simp only [List.length_cons]
        omega
      · simp

/-- So many copies of a text, one behind the other. -/
def repeated (text : String) (count : Nat) : String :=
  String.ofList (List.replicate count text.toList).flatten

/-- Copies of a text, when that many bytes can be addressed: as many as are asked for, or enough to
leave no room where there is room for `room` bytes. -/
def copies (text : String) (count room : Nat) : Except Fault String := do
  let size := byteSize text.toList
  Fault.addressable (size * count)
  return repeated text (min count (room / size + 1))

theorem byteSize_replicate (cs : List Char) (count : Nat) :
    byteSize (List.replicate count cs).flatten = count * byteSize cs := by
  induction count with
  | zero => simp
  | succ count ih =>
      rw [List.replicate_succ, List.flatten_cons, byteSize_append, ih]
      rw [Nat.succ_mul, Nat.add_comm]

end Text

open Text in
/-- A text of at most `capacity` bytes. -/
structure BoundedText (capacity : Nat) where
  /-- The characters kept, the last one first. -/
  backwards : List Char
  /-- The number of bytes kept. -/
  size : Nat
  size_eq : size = byteSize backwards
  size_le : size ≤ capacity
  /-- Whether something has been cut off. -/
  cut : Bool
deriving DecidableEq, Repr

namespace BoundedText

variable {capacity : Nat}

/-- Nothing kept and nothing cut. -/
def empty : BoundedText capacity := ⟨[], 0, rfl, Nat.zero_le _, false⟩

/-- The characters kept. -/
def chars (t : BoundedText capacity) : List Char :=
  t.backwards.reverse

/-- The text kept. -/
def text (t : BoundedText capacity) : String :=
  String.ofList t.chars

/-- Adds as much of a text as there is room for. -/
def push (t : BoundedText capacity) (added : String) : BoundedText capacity :=
  let kept := Text.fitting (capacity - t.size) added.toList
  { backwards := kept.reverse ++ t.backwards
    size := t.size + Text.byteSize kept
    size_eq := by
      simp only [t.size_eq, Text.byteSize_append, Text.byteSize_reverse]
      omega
    size_le := by
      have := t.size_le
      have := Text.byteSize_fitting_le (capacity - t.size) added.toList
      simp only [kept]
      omega
    cut := t.cut || kept.length < added.toList.length }

/-- Adds a line and its line feed, each cut on its own. -/
def pushLine (t : BoundedText capacity) (line : String) : BoundedText capacity :=
  (t.push line).push "\n"

/-- The lines that are not empty. -/
def lines (t : BoundedText capacity) : List String :=
  (Text.lines t.text).filter fun line => !line.isEmpty

/-- A form for reading by people, with the text quoted. -/
def describe (t : BoundedText capacity) : String :=
  "FixedText \x7b text: " ++ Text.quoted t.text ++ ", truncated: " ++ toString t.cut ++ " \x7d"

/-- A push adds the characters for which there is room behind those that were kept. -/
theorem chars_push (t : BoundedText capacity) (added : String) :
    (t.push added).chars = t.chars ++ Text.fitting (capacity - t.size) added.toList := by
  simp [push, chars]

theorem byteSize_chars_le (t : BoundedText capacity) : Text.byteSize t.chars ≤ capacity := by
  have := t.size_le
  rw [chars, Text.byteSize_reverse, ← t.size_eq]
  exact this

theorem push_ofList_append {t : BoundedText capacity} {cs : List Char}
    (h : capacity - t.size < Text.byteSize cs) (ds : List Char) :
    t.push (String.ofList (cs ++ ds)) = t.push (String.ofList cs) := by
  have hfit := Text.fitting_append h ds
  have hlen := Text.length_fitting_lt h
  simp only [push, String.toList_ofList, hfit, List.length_append]
  congr 2
  simp only [decide_eq_decide]
  omega

/-- The copies that are left out make no difference. -/
theorem push_copies {t : BoundedText capacity} {text added : String} {count : Nat}
    (h : Text.copies text count capacity = .ok added) :
    t.push added = t.push (Text.repeated text count) := by
  simp only [Text.copies] at h
  cases hfits : Fault.addressable (Text.byteSize text.toList * count) with
  | error fault => simp [hfits, bind, Except.bind] at h
  | ok _ =>
    simp only [hfits, bind, Except.bind, pure, Except.pure, Except.ok.injEq] at h
    subst h
    generalize hsize : Text.byteSize text.toList = size
    by_cases hle : count ≤ capacity / size + 1
    · rw [Nat.min_eq_left hle]
    · rw [Nat.min_eq_right (by omega)]
      by_cases hzero : size = 0
      · cases htext : text.toList with
        | nil => simp [Text.repeated, htext]
        | cons c cs =>
            have := c.utf8Size_pos
            rw [htext, Text.byteSize_cons] at hsize
            omega
      · obtain ⟨more, hmore⟩ : ∃ more, count = (capacity / size + 1) + more :=
          ⟨count - (capacity / size + 1), by omega⟩
        have hroom : capacity < (capacity / size + 1) * size := by
          have := Nat.div_add_mod capacity size
          have := Nat.mod_lt capacity (Nat.pos_of_ne_zero hzero)
          rw [Nat.succ_mul, Nat.mul_comm]
          omega
        have hbytes := Text.byteSize_replicate text.toList (capacity / size + 1)
        rw [hsize] at hbytes
        have hsplit : List.replicate (capacity / size + 1 + more) text.toList
            = List.replicate (capacity / size + 1) text.toList ++ List.replicate more text.toList :=
          List.replicate_append_replicate.symm
        rw [hmore, Text.repeated, Text.repeated, hsplit, List.flatten_append]
        have hfull : capacity - t.size
            < Text.byteSize (List.replicate (capacity / size + 1) text.toList).flatten := by
          rw [hbytes]
          omega
        exact (push_ofList_append hfull _).symm

end BoundedText

end BlockHost
