import BlockHost.Proofs.BacklogRuns

/-!
# Reading what has been cut off

Reading goes from the front and never looks behind what it takes. So whatever is read from the front
of some bytes is also read from all of them (`Layout.parse_longer`). This is what remains of reading
back when a body is too long for its own size: the size of an atom has 32 bits, a sequence of more
bytes than that declares fewer than it has, and what is read are the first of its events
(`Backlog.eventsOf_sequence_begins`).
-/

namespace BlockHost

section Prefix

variable {bs cs : Bytes}

theorem Bytes.drop_begins (h : bs <+: cs) (start : Nat) : bs.drop start <+: cs.drop start := by
  obtain ⟨rest, rfl⟩ := h
  rcases Nat.le_total start bs.length with hle | hle
  · rw [List.drop_append_of_le_length hle]
    exact List.prefix_append _ _
  · rw [List.drop_of_length_le hle]
    exact List.nil_prefix

/-- What is all there stays what it is when more bytes follow. -/
theorem Bytes.take_drop_begins (h : bs <+: cs) {start len : Nat}
    (hlength : ((bs.drop start).take len).length = len) :
    (cs.drop start).take len = (bs.drop start).take len := by
  obtain ⟨rest, rfl⟩ := h
  rw [List.length_take, List.length_drop] at hlength
  rcases Nat.eq_zero_or_pos len with rfl | hpos
  · rw [List.take_zero, List.take_zero]
  · rw [List.drop_append_of_le_length (by omega),
      List.take_append_of_le_length (by rw [List.length_drop]; omega)]

theorem Bytes.slice?_longer (h : bs <+: cs) {start len : Nat} {part : Bytes}
    (hpart : bs.slice? start len = some part) : cs.slice? start len = some part := by
  unfold slice? at hpart ⊢
  simp only at hpart ⊢
  split at hpart
  · next hlength =>
      rw [take_drop_begins h hlength, if_pos hlength]
      exact hpart
  · cases hpart

theorem Bytes.word32At?_longer (h : bs <+: cs) {start : Nat} {v : UInt32}
    (hv : bs.word32At? start = some v) : cs.word32At? start = some v := by
  obtain ⟨part, hpart, rfl⟩ := Option.map_eq_some_iff.1 hv
  rw [word32At?, slice?_longer h hpart]
  rfl

theorem Bytes.int64At?_longer (h : bs <+: cs) {start : Nat} {v : Int64}
    (hv : bs.int64At? start = some v) : cs.int64At? start = some v := by
  obtain ⟨w, hw, rfl⟩ := Option.map_eq_some_iff.1 hv
  obtain ⟨part, hpart, rfl⟩ := Option.map_eq_some_iff.1 hw
  rw [int64At?, word64At?, slice?_longer h hpart]
  rfl

theorem Atom.parseWhole_longer (h : bs <+: cs) {a : Atom} (ha : parseWhole bs = some a) :
    parseWhole cs = some a := by
  have hwhole := Atom.whole_of_parseWhole ha
  obtain ⟨hparse, -⟩ := Option.filter_eq_some_iff.1 ha
  obtain ⟨size, hsize, hrest⟩ := Option.bind_eq_some_iff.1 hparse
  obtain ⟨type, htype, heq⟩ := Option.bind_eq_some_iff.1 hrest
  cases heq
  have hcs : parse cs = parse bs := by
    rw [parse, parse, hsize, htype, Bytes.word32At?_longer h hsize, Bytes.word32At?_longer h htype]
    simp only [Option.bind_eq_bind, Option.bind_some, Bytes.take_drop_begins h hwhole]
  rw [parseWhole, hcs]
  exact ha

/-- A child that is found at the start of some bytes is found there when more bytes follow. -/
theorem Layout.head?_longer (h : bs <+: cs) {position : Nat} {child : Key × Atom}
    (hchild : sequence.head? position bs = some child) :
    sequence.head? position cs = some child := by
  obtain ⟨key, hkey, hrest⟩ := Option.bind_eq_some_iff.1 hchild
  obtain ⟨a, ha, heq⟩ := Option.bind_eq_some_iff.1 hrest
  cases heq
  obtain ⟨t, ht, rfl⟩ := Option.map_eq_some_iff.1 hkey
  have hkey' : sequence.key position cs = some (.time t) := by
    exact congrArg (Option.map Key.time) (Bytes.int64At?_longer h ht)
  have hwhole := Atom.parseWhole_longer (Bytes.drop_begins h sequence.keySize) ha
  simp only [head?, hkey', Option.bind_eq_bind, Option.bind_some, hwhole]
  rfl

theorem Layout.parse_longer (h : bs <+: cs) (position : Nat) :
    sequence.parse position bs <+: sequence.parse position cs := by
  fun_induction Layout.parse sequence position bs generalizing cs with
  | case1 => exact List.nil_prefix
  | case2 position bs key child hhead ih =>
      rw [Layout.parse.eq_def sequence position cs]
      split
      · next hnone =>
          rw [head?_longer h hhead] at hnone
          cases hnone
      · next hsome =>
          rw [head?_longer h hhead] at hsome
          cases hsome
          exact List.cons_prefix_cons.2 ⟨rfl, ih (Bytes.drop_begins h _)⟩

end Prefix

namespace Backlog

variable {b : Backlog}

/-- An atom declares its size in 32 bits, and what is read is as much of its body as that. -/
theorem parse_encode_begins (type : UInt32) (body : Bytes) :
    ∃ a, Atom.parse (Atom.encode type body) = some a ∧ a.type = type ∧ a.body <+: body := by
  have hparse := Atom.parse_encode_take type body []
  rw [List.append_nil] at hparse
  exact ⟨_, hparse, rfl, List.take_prefix _ _⟩

/-- However long the sequence is, what is read from it are the first of the events. -/
theorem eventsOf_sequence_begins (hwhole : Whole b.events) :
    eventsOf b.schema (Atom.parse b.sequence) <+: b.events := by
  obtain ⟨a, hparse, htype, hbody⟩ :=
    parse_encode_begins (b.schema.id .sequence) (encodeEvents b.events)
  rw [sequence_eq, hparse]
  show a.events b.schema <+: b.events
  by_cases hkind : b.schema.kindOf a.type = .sequence
  · rw [Atom.events, Atom.children, hkind]
    refine ((Layout.parse_longer hbody 0).filterMap _).trans ?_
    rw [Layout.parse_encodeEvents hwhole, List.filterMap_map]
    show b.events.filterMap some <+: b.events
    exact ⟨[], by rw [List.append_nil, List.filterMap_some]⟩
  · have hnone : a.events b.schema = [] :=
      List.eq_nil_iff_forall_not_mem.2 fun e he => hkind (Atom.mem_events he).1
    rw [hnone]
    exact List.nil_prefix

end Backlog

end BlockHost
