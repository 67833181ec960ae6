import BlockHost.Proofs.EventStreams
import BlockHost.Proofs.Iteration

/-!
# Reading with every sum checked

The library counts in natural numbers and takes parts of lists that need not be there. On an audio
device positions are words of 64 bits, and a sum above their range, or a range that is not inside its
bytes, brings the reader down. Here the reading of a sequence of events is written with every sum,
difference and range checked where it is formed (`Checked.events`).

Whatever bytes it is given, this reader is not brought down and finds what `Atom.events` finds
(`Checked.parse_eq`, `Checked.events_eq`). The positions cannot leave their range, since a size has 32
bits, and since a child is only passed when all of it is there.
-/

namespace BlockHost

namespace Checked

/-! ## Sums, differences and ranges -/

/-- A difference of words. -/
def sub (a b : Nat) : Except Fault Nat :=
  if b ≤ a then .ok (a - b) else .error .subtraction

/-- The part of a list between two positions. -/
def range {α : Type} (xs : List α) (start stop : Nat) : Except Fault (List α) :=
  if start ≤ stop ∧ stop ≤ xs.length then .ok ((xs.drop start).take (stop - start))
  else .error (.range xs.length start (stop - start))

/-- The least multiple of eight that is at least `n`. -/
def pad (n : Nat) : Except Fault Nat := do
  let sum ← Fault.checkedAdd n 8
  let sum ← sub sum 1
  return sum / 8 * 8

theorem eq_of_add {a b c : Nat} (h : Fault.checkedAdd a b = .ok c) : c = a + b := by
  unfold Fault.checkedAdd at h
  split at h <;> cases h
  rfl

theorem add_eq {a b : Nat} (h : a + b < 2 ^ 64) : Fault.checkedAdd a b = .ok (a + b) :=
  if_pos h

theorem sub_eq {a b : Nat} (h : b ≤ a) : sub a b = .ok (a - b) :=
  if_pos h

theorem range_eq {α : Type} {xs : List α} {start stop : Nat} (h : start ≤ stop)
    (hstop : stop ≤ xs.length) : range xs start stop = .ok ((xs.drop start).take (stop - start)) :=
  if_pos ⟨h, hstop⟩

theorem pad_eq {n : Nat} (h : n + 8 < 2 ^ 64) : pad n = .ok (padded n) := by
  simp only [pad, add_eq h, bind, Except.bind, sub_eq (Nat.le_add_left 1 (n + 7))]
  rfl

/-! ## Atoms -/

/-- The 32-bit word at a position. -/
def word32At? (bs : Bytes) (start : Nat) : Except Fault (Option UInt32) := do
  let _ ← Fault.checkedAdd start 4
  return bs.word32At? start

/-- The signed 64-bit number at a position. -/
def int64At? (bs : Bytes) (start : Nat) : Except Fault (Option Int64) := do
  let _ ← Fault.checkedAdd start 8
  return bs.int64At? start

/-- The atom at the start of some bytes, with as much of its body as is there. Where the body ends
is a saturated sum. -/
def parse (bs : Bytes) : Except Fault (Option Atom) := do
  match ← word32At? bs 0 with
  | none => return none
  | some size =>
      match ← word32At? bs 4 with
      | none => return none
      | some type =>
          let stop := min (min (Atom.headerSize + size.toNat) (2 ^ 64 - 1)) bs.length
          return some { type, size, body := ← range bs Atom.headerSize stop }

/-- The atom at the start of some bytes, when its body is all there. -/
def parseWhole (bs : Bytes) : Except Fault (Option Atom) := do
  return (← parse bs).filter fun a => !a.isTruncated

/-- The size of the header and the declared body. -/
def totalSize (a : Atom) : Except Fault Nat :=
  Fault.checkedAdd Atom.headerSize a.size.toNat

theorem word32At?_eq {bs : Bytes} {start : Nat} (h : start + 4 < 2 ^ 64) :
    word32At? bs start = .ok (bs.word32At? start) := by
  simp only [word32At?, add_eq h, bind, Except.bind]
  rfl

theorem int64At?_eq {bs : Bytes} {start : Nat} (h : start + 8 < 2 ^ 64) :
    int64At? bs start = .ok (bs.int64At? start) := by
  simp only [int64At?, add_eq h, bind, Except.bind]
  rfl

theorem length_of_slice? {bs part : Bytes} {start len : Nat} (hlen : 0 < len)
    (h : bs.slice? start len = some part) : start + len ≤ bs.length := by
  rw [Bytes.slice?] at h
  split at h
  · next hlength =>
      rw [List.length_take, List.length_drop] at hlength
      omega
  · cases h

theorem parse_eq (bs : Bytes) : parse bs = .ok (Atom.parse bs) := by
  rw [parse, word32At?_eq (by decide), Atom.parse]
  cases hsize : bs.word32At? 0 with
  | none => rfl
  | some size =>
      simp only [bind, Except.bind, Option.bind]
      rw [word32At?_eq (by decide)]
      cases htype : bs.word32At? 4 with
      | none => rfl
      | some type =>
          obtain ⟨part, hpart, -⟩ := Option.map_eq_some_iff.1 htype
          have hlength := length_of_slice? (by decide) hpart
          have hlt := size.toNat_lt
          have hstop : min (min (Atom.headerSize + size.toNat) (2 ^ 64 - 1)) bs.length
              = min (Atom.headerSize + size.toNat) bs.length := by
            unfold Atom.headerSize
            omega
          have hbody : (bs.drop Atom.headerSize).take
              (min (Atom.headerSize + size.toNat) bs.length - Atom.headerSize)
              = (bs.drop Atom.headerSize).take size.toNat := by
            rw [List.take_eq_take_iff, List.length_drop]
            omega
          simp only [hstop]
          rw [range_eq (by unfold Atom.headerSize; omega) (Nat.min_le_right _ _), hbody]
          rfl

theorem parseWhole_eq (bs : Bytes) : parseWhole bs = .ok (Atom.parseWhole bs) := by
  rw [parseWhole, parse_eq]
  rfl

theorem length_of_parseWhole {bs : Bytes} {a : Atom} (h : Atom.parseWhole bs = some a) :
    a.totalSize ≤ bs.length := by
  rw [Atom.parseWhole_eq] at h
  split at h
  · next hle =>
      cases h
      rw [Atom.totalSize, Atom.atStart, Atom.toNat_declaredSize]
      exact hle
  · cases h

theorem totalSize_eq (a : Atom) : totalSize a = .ok a.totalSize := by
  have hlt := a.size.toNat_lt
  exact add_eq (by unfold Atom.headerSize; omega)

/-! ## Kinds -/

/-- The kind of a type, which is looked up by the place of its row in the table. -/
def kindOf (s : Schema) (type : UInt32) : Except Fault Kind :=
  match s.kinds.findIdx? fun row => type == row.1 with
  | none => .ok .chunk
  | some place =>
      match s.kinds[place]? with
      | none => .error (.index s.kinds.length place)
      | some row => .ok row.2

theorem kindOf_eq (s : Schema) (type : UInt32) : kindOf s type = .ok (s.kindOf type) := by
  rw [kindOf, Schema.kindOf]
  generalize s.kinds = rows
  induction rows with
  | nil => rfl
  | cons row rest ih =>
      obtain ⟨found, kind⟩ := row
      rw [List.findIdx?_cons, List.lookup_cons]
      cases hfound : type == found with
      | true => rfl
      | false =>
          simp only [Bool.false_eq_true, if_false]
          cases hplace : rest.findIdx? fun row => type == row.1 with
          | none =>
              rw [hplace] at ih
              exact ih
          | some place =>
              rw [hplace] at ih
              simp only [Option.map_some, List.getElem?_cons_succ]
              simp only at ih
              cases hrow : rest[place]? with
              | none =>
                  rw [hrow] at ih
                  cases ih
              | some row =>
                  rw [hrow] at ih
                  exact ih

/-! ## Events -/

/-- The child that begins at a position of a body, and the room that it takes. -/
def childAt (body : Bytes) (start : Nat) : Except Fault (Option (Atom × Nat)) := do
  if body.length < start then return none
  match ← parseWhole (body.drop start) with
  | none => return none
  | some child => return some (child, ← pad (← totalSize child))

/-- The event that begins at a position of a body, and the position behind it. -/
def eventAt (s : Schema) (body : Bytes) (position : Nat) :
    Except Fault (Option ((Int64 × Atom) × Nat)) := do
  match ← int64At? body position with
  | none => return none
  | some time =>
      match ← childAt body (← Fault.checkedAdd position 8) with
      | none => return none
      | some (child, advance) =>
          let next ← Fault.checkedAdd position (← Fault.checkedAdd 8 advance)
          let _ ← kindOf s child.type
          return some ((time, child), next)

theorem paddedSize_lt (a : Atom) : a.paddedSize < 2 ^ 32 + 16 := by
  have hsize := a.size.toNat_lt
  have hpad := padded_lt a.totalSize
  unfold Atom.paddedSize Atom.totalSize Atom.headerSize at *
  omega

theorem childAt_eq (body : Bytes) (start : Nat) :
    childAt body start = .ok ((Atom.parseWhole (body.drop start)).map fun child =>
      (child, child.paddedSize)) := by
  rw [childAt]
  by_cases hlt : body.length < start
  · rw [if_pos hlt, List.drop_eq_nil_of_le (Nat.le_of_lt hlt)]
    rfl
  · rw [if_neg hlt]
    simp only [pure, Except.pure, bind, Except.bind, parseWhole_eq]
    cases Atom.parseWhole (body.drop start) with
    | none => rfl
    | some child =>
        have hsize := child.size.toNat_lt
        have hpad : pad child.totalSize = .ok child.paddedSize :=
          pad_eq (by unfold Atom.totalSize Atom.headerSize; omega)
        simp only [totalSize_eq, hpad]
        rfl

/-- The reader finds the child that there is, and goes on behind its padding. -/
theorem eventAt_spec (s : Schema) (body : Bytes) {position : Nat} (index : Nat)
    (h : position + 2 ^ 33 < 2 ^ 64) :
    (eventAt s body position = .ok none ∧
      Layout.sequence.head? index (body.drop position) = none) ∨
    ∃ t child, eventAt s body position
        = .ok (some ((t, child), position + (8 + child.paddedSize))) ∧
      Layout.sequence.head? index (body.drop position) = some (.time t, child) := by
  have hword : Bytes.int64At? (body.drop position) 0 = body.int64At? position := by
    simp only [Bytes.int64At?, Bytes.word64At?, Bytes.slice?, List.drop_zero]
  have hkey : Layout.sequence.key index (body.drop position)
      = (body.int64At? position).map Key.time := by
    rw [← hword]
    rfl
  have hrest : (body.drop position).drop Layout.sequence.keySize = body.drop (position + 8) :=
    List.drop_drop
  rw [eventAt, int64At?_eq (by omega), Layout.head?, hkey, hrest]
  cases body.int64At? position with
  | none => exact .inl ⟨rfl, rfl⟩
  | some t =>
      simp only [bind, Except.bind, Option.bind, Option.map,
        add_eq (show position + 8 < 2 ^ 64 by omega), childAt_eq]
      cases Atom.parseWhole (body.drop (position + 8)) with
      | none => exact .inl ⟨rfl, rfl⟩
      | some child =>
          have hlt := paddedSize_lt child
          simp only [add_eq (show 8 + child.paddedSize < 2 ^ 64 by omega),
            add_eq (show position + (8 + child.paddedSize) < 2 ^ 64 by omega), kindOf_eq]
          exact .inr ⟨t, child, rfl, rfl⟩

/-- An event that is found lies inside the body, and the next one can only be behind it. -/
theorem lt_of_eventAt {s : Schema} {body : Bytes} {position next : Nat} {e : Int64 × Atom}
    (h : eventAt s body position = .ok (some (e, next))) :
    position < body.length ∧ position < next := by
  obtain ⟨time, htime, h⟩ := of_bind_ok h
  cases time with
  | none => cases h
  | some t =>
      obtain ⟨start, hstart, h⟩ := of_bind_ok h
      obtain ⟨child, hchild, h⟩ := of_bind_ok h
      cases child with
      | none => cases h
      | some child =>
          obtain ⟨room, hroom, h⟩ := of_bind_ok h
          obtain ⟨behind, hbehind, h⟩ := of_bind_ok h
          obtain ⟨kind, -, h⟩ := of_bind_ok h
          cases h
          obtain ⟨stop, hstop, htime⟩ := of_bind_ok htime
          obtain ⟨word, hword, -⟩ := Option.map_eq_some_iff.1 (Except.ok.inj htime)
          obtain ⟨part, hpart, -⟩ := Option.map_eq_some_iff.1 hword
          have hlength := length_of_slice? (by decide) hpart
          have hbehind := eq_of_add hbehind
          have hroom := eq_of_add hroom
          omega

/-- The events that begin at a position of a body or behind it. -/
def eventsFrom (s : Schema) (body : Bytes) (position : Nat) : Except Fault (List (Int64 × Atom)) :=
  match _h : eventAt s body position with
  | .error fault => .error fault
  | .ok none => .ok []
  | .ok (some (e, next)) => do return e :: (← eventsFrom s body next)
termination_by body.length - position
decreasing_by
  have := lt_of_eventAt _h
  omega

/-- The events of a sequence. -/
def events (s : Schema) (a : Atom) : Except Fault (List (Int64 × Atom)) :=
  eventsFrom s a.body 0

theorem eventsFrom_next (s : Schema) (body : Bytes) (position : Nat) :
    eventsFrom s body position =
      match eventAt s body position with
      | .error fault => .error fault
      | .ok none => .ok []
      | .ok (some (e, next)) => do return e :: (← eventsFrom s body next) := by
  rw [eventsFrom]
  split
  all_goals
    next h => rw [h]

/-- The event that a child of a sequence is. -/
def timed : Key × Atom → Option (Int64 × Atom)
  | (.time t, child) => some (t, child)
  | _ => none

/-- Each position is that of an event in the body, or that behind one. -/
theorem eventsFrom_eq (s : Schema) {body : Bytes} (hbody : body.length < 2 ^ 32) (index position : Nat)
    (h : position < 2 ^ 34) :
    eventsFrom s body position
      = .ok ((Layout.sequence.parse index (body.drop position)).filterMap timed) := by
  induction position using eventsFrom.induct s body generalizing index with
  | case1 position fault hevent =>
      have hrange : position + 2 ^ 33 < 2 ^ 64 := by omega
      rcases eventAt_spec s body index hrange with ⟨heq, -⟩ | ⟨t, child, heq, -⟩
      all_goals
        rw [heq] at hevent
        cases hevent
  | case2 position hevent =>
      have hrange : position + 2 ^ 33 < 2 ^ 64 := by omega
      rcases eventAt_spec s body index hrange with ⟨-, hnone⟩ | ⟨t, child, heq, -⟩
      · rw [eventsFrom_next, hevent, Layout.parse_eq, hnone]
        rfl
      · rw [heq] at hevent
        cases hevent
  | case3 position e next hevent ih =>
      have hrange : position + 2 ^ 33 < 2 ^ 64 := by omega
      have hlt := lt_of_eventAt hevent
      rcases eventAt_spec s body index hrange with ⟨heq, -⟩ | ⟨t, child, heq, hhead⟩
      · rw [heq] at hevent
        cases hevent
      · have hroom := paddedSize_lt child
        rw [heq] at hevent
        cases hevent
        have hkey : Layout.sequence.keySize = 8 := rfl
        rw [eventsFrom_next, heq, Layout.parse_eq, hhead]
        simp only [ih (index + 1) (by omega), List.drop_drop, hkey]
        rfl

/-- Whatever bytes a sequence consists of, the reader finds its events. -/
theorem events_eq {s : Schema} {a : Atom} (hkind : s.kindOf a.type = .sequence)
    (hbody : a.body.length < 2 ^ 32) : events s a = .ok (a.events s) := by
  have hchildren : a.children s = Layout.sequence.parse 0 a.body := by
    rw [Atom.children, hkind]
  rw [events, eventsFrom_eq s hbody 0 0 (by decide), List.drop_zero, Atom.events, hchildren]
  rfl

end Checked

/-! ## How many events there can be -/

/-- An event takes a time and a header at least. -/
theorem Layout.length_parse_sequence (index : Nat) (bs : Bytes) :
    16 * (Layout.sequence.parse index bs).length ≤ bs.length := by
  fun_induction Layout.parse Layout.sequence index bs with
  | case1 => exact Nat.zero_le _
  | case2 index bs key child hhead ih =>
      obtain ⟨_, -, hrest⟩ := Option.bind_eq_some_iff.1 hhead
      obtain ⟨_, hwhole, heq⟩ := Option.bind_eq_some_iff.1 hrest
      cases heq
      rw [Atom.parseWhole_eq] at hwhole
      have hkey : Layout.sequence.keySize = 8 := rfl
      have hheader := child.headerSize_le_paddedSize
      split at hwhole
      · next hle =>
          rw [List.length_drop] at hle ih
          rw [hkey] at hle ih
          unfold Atom.headerSize at hle hheader
          rw [List.length_cons, hkey]
          omega
      · cases hwhole

theorem Atom.length_events_le (s : Schema) (a : Atom) :
    16 * (a.events s).length ≤ a.body.length := by
  cases hevents : a.events s with
  | nil => exact Nat.zero_le _
  | cons e rest =>
      have hkind := (Atom.mem_events (s := s) (a := a) (hevents ▸ List.mem_cons_self)).1
      have hchildren : a.children s = Layout.sequence.parse 0 a.body := by
        rw [Atom.children, hkind]
      have hle : (a.events s).length ≤ (a.children s).length := List.length_filterMap_le _ _
      have hparse := Layout.length_parse_sequence 0 a.body
      rw [hchildren] at hle
      rw [hevents] at hle
      omega

/-- A size has 32 bits. -/
theorem Atom.length_body_lt {bs : Bytes} {a : Atom} (h : Atom.parse bs = some a) :
    a.body.length < 2 ^ 32 := by
  obtain ⟨size, -, hrest⟩ := Option.bind_eq_some_iff.1 h
  obtain ⟨type, -, heq⟩ := Option.bind_eq_some_iff.1 hrest
  cases heq
  have hlt := size.toNat_lt
  rw [List.length_take]
  omega

/-- What lies at an input holds fewer than `2 ^ 28` events. -/
theorem length_eventsOf_lt (s : Schema) (input : Option Buffer) :
    (eventsOf s (input.bind Buffer.atom?)).length < 2 ^ 28 := by
  cases ha : input.bind Buffer.atom? with
  | none => exact Nat.two_pow_pos 28
  | some a =>
      obtain ⟨b, -, hb⟩ := Option.bind_eq_some_iff.1 ha
      rw [Buffer.atom?_eq] at hb
      have hbody := Atom.length_body_lt hb
      have hle := a.length_events_le s
      rw [eventsOf]
      omega

end BlockHost
