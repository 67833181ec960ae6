import BlockHost.Host.Process
import BlockHost.Proofs.EventStreams

/-!
# Blocks put aside

A backlog that has not failed holds all events of all blocks put aside, in their order, each
later by the frames of the blocks before its own (`Backlog.adds_appended`), and is read as the
sequence of these events (`Backlog.parse_sequence`). `Host.putAside_spec` says the same of all
inputs at once; the only way in which it can be brought down is a count of blocks that leaves
its word.
-/

namespace BlockHost

/-! ## The type of sequences -/

namespace Kind

theorem of_lookup_insertRow {type x : UInt32} {kind found : Kind} {rows : List (UInt32 × Kind)}
    (h : (insertRow type kind rows).lookup x = some found) :
    (x = type ∧ found = kind) ∨ rows.lookup x = some found := by
  induction rows with
  | nil =>
      rw [insertRow, lookup_row] at h
      split at h
      · next hx =>
          cases h
          exact .inl ⟨hx, rfl⟩
      · cases h
  | cons row rest ih =>
      rw [insertRow] at h
      split at h
      · rw [lookup_row] at h
        split at h
        · next hx =>
            cases h
            exact .inl ⟨hx, rfl⟩
        · exact .inr h
      · split at h
        · exact .inr h
        · rw [lookup_row] at h ⊢
          split at h
          · next hx =>
              rw [if_pos hx]
              exact .inr h
          · next hx =>
              rw [if_neg hx]
              exact ih h

/-- What the table says of a type, it says because of a term that has this type. -/
theorem of_lookup_foldl {v : Vocabulary} {terms : List (Term × Kind)} {x : UInt32} {found : Kind} :
    ∀ {rows : List (UInt32 × Kind)},
      (terms.foldl (fun rows (t, kind) => insertRow (v.id t) kind rows) rows).lookup x
          = some found →
        (∃ t, (t, found) ∈ terms ∧ v.id t = x) ∨ rows.lookup x = some found := by
  induction terms with
  | nil => exact fun h => .inr h
  | cons first rest ih =>
      intro rows h
      rcases ih h with ⟨t, ht, hx⟩ | hrow
      · exact .inl ⟨t, List.mem_cons_of_mem _ ht, hx⟩
      · rcases of_lookup_insertRow hrow with ⟨hx, rfl⟩ | hrow
        · exact .inl ⟨first.1, List.mem_cons_self, hx.symm⟩
        · exact .inr hrow

end Kind

/-- Only one type is that of sequences. -/
theorem Schema.eq_of_kindOf_sequence {s : Schema} {type : UInt32} (h : s.kindOf type = .sequence) :
    type = s.id .sequence := by
  rw [kindOf, s.kinds_eq] at h
  cases hrow : (Kind.table s.vocabulary).lookup type with
  | none =>
      rw [hrow] at h
      cases h
  | some kind =>
      rw [hrow, Option.getD_some] at h
      rw [h] at hrow
      rcases Kind.of_lookup_foldl hrow with ⟨t, ht, rfl⟩ | hnone
      · simp only [Kind.ofTerm, List.mem_cons, Prod.mk.injEq, reduceCtorEq, and_false, and_true,
          List.not_mem_nil, or_false, false_or] at ht
        rw [ht]
        rfl
      · cases hnone

/-- Events later by so many frames. -/
def later (frames : Nat) (events : List (Int64 × Atom)) : List (Int64 × Atom) :=
  events.map fun e => (Int64.ofInt (e.1.toInt + frames), e.2)

section Later

variable {frames : Nat} {events : List (Int64 × Atom)}

theorem atZero_later (frames : Nat) (events : List (Int64 × Atom)) :
    atZero (later frames events) = atZero events := by
  rw [atZero, later, List.map_map]
  rfl

theorem toInt_later {t : Int64} (hle : t.toInt + frames ≤ Backlog.lastTime) :
    (Int64.ofInt (t.toInt + frames)).toInt = t.toInt + frames := by
  have hleast := t.le_toInt
  unfold Backlog.lastTime at hle
  exact Int64.toInt_ofInt_of_le (by omega) (by omega)

theorem mem_later (hle : ∀ e ∈ events, e.1.toInt + frames ≤ Backlog.lastTime) :
    ∀ e ∈ later frames events, ∃ e' ∈ events, e.1.toInt = e'.1.toInt + frames := by
  intro e he
  obtain ⟨e', he', rfl⟩ := List.mem_map.1 he
  exact ⟨e', he', toInt_later (hle e' he')⟩

theorem Ordered.later (h : Ordered 0 events)
    (hle : ∀ e ∈ events, e.1.toInt + frames ≤ Backlog.lastTime) :
    Ordered 0 (later frames events) := by
  refine List.pairwise_cons.2 ⟨fun t ht => ?_, ?_⟩
  · obtain ⟨e, he, rfl⟩ := List.mem_map.1 ht
    obtain ⟨e', he', heq⟩ := mem_later hle e he
    have hpos := h.nonneg e' he'
    rw [Int64.le_iff_toInt_le, Int64.toInt_zero, heq]
    omega
  · have htimes := List.pairwise_map.1 (List.pairwise_cons.1 h).2
    rw [BlockHost.later, List.map_map, List.pairwise_map]
    refine htimes.imp_of_mem fun {e e'} he he' hlt => ?_
    have heq := toInt_later (hle e he)
    have heq' := toInt_later (hle e' he')
    rw [Int64.le_iff_toInt_le] at hlt ⊢
    simp only [Function.comp, heq, heq']
    omega

end Later

namespace Backlog

theorem frame_add (b : Backlog) (e : Int64 × Atom) :
    (b.add e).offset = b.offset ∧ (b.add e).blocks = b.blocks ∧ (b.add e).schema = b.schema ∧
      (b.add e).capacity = b.capacity := by
  unfold add
  split
  · exact ⟨rfl, rfl, rfl, rfl⟩
  · split
    · exact ⟨rfl, rfl, rfl, rfl⟩
    · dsimp only
      split <;> exact ⟨rfl, rfl, rfl, rfl⟩

theorem frame_foldl (b : Backlog) (events : List (Int64 × Atom)) :
    (events.foldl add b).offset = b.offset ∧ (events.foldl add b).blocks = b.blocks ∧
      (events.foldl add b).schema = b.schema ∧ (events.foldl add b).capacity = b.capacity := by
  induction events generalizing b with
  | nil => exact ⟨rfl, rfl, rfl, rfl⟩
  | cons e rest ih =>
      obtain ⟨hoffset, hblocks, hschema, hcapacity⟩ := frame_add b e
      obtain ⟨hoffset', hblocks', hschema', hcapacity'⟩ := ih (b.add e)
      exact ⟨hoffset'.trans hoffset, hblocks'.trans hblocks, hschema'.trans hschema,
        hcapacity'.trans hcapacity⟩

/-- Only sequences have events, so that nothing depends on the type of what is put aside. -/
theorem addAll_eq (b : Backlog) (input : Atom) :
    b.addAll input = (input.events b.schema).foldl add b := by
  unfold addAll
  split
  · rfl
  · next htype =>
      have hnone : input.events b.schema = [] := by
        refine List.eq_nil_iff_forall_not_mem.2 fun e he => htype ?_
        exact Schema.eq_of_kindOf_sequence (Atom.mem_events he).1
      rw [hnone]
      rfl

/-- What is left when a block has been put aside. -/
def appended (b : Backlog) (events : List (Int64 × Atom)) (frames : UInt32) : Backlog :=
  { events.foldl add b with
    offset := min (b.offset + frames.toNat) lastTime
    blocks := b.blocks + 1 }

/-- A block is put aside unless so many have been already that their number leaves its word. -/
theorem append_eq (b : Backlog) (input : Option Atom) (frames : UInt32) :
    b.append input frames =
      if b.blocks + 1 < 2 ^ 32 then .ok (b.appended (eventsOf b.schema input) frames)
      else .error .addition := by
  unfold append appended eventsOf
  cases input with
  | none => rfl
  | some a =>
      obtain ⟨hoffset, hblocks, -⟩ := frame_foldl b (a.events b.schema)
      simp only [addAll_eq, hoffset, hblocks]

/-- An event is kept exactly when its time stays a time and there is room for it. -/
theorem failed_add_iff (b : Backlog) (e : Int64 × Atom) :
    (b.add e).failed = false ↔
      b.failed = false ∧ e.1.toInt + b.offset ≤ lastTime ∧ b.size + eventSize e ≤ b.capacity := by
  have hsame : eventSize (Int64.ofInt (e.1.toInt + b.offset), e.2) = eventSize e := rfl
  unfold add
  by_cases hfailed : b.failed = true
  · rw [if_pos hfailed, hfailed]
    exact ⟨fun h => (by cases h), fun h => (by cases h.1)⟩
  · have hgood : b.failed = false := Bool.eq_false_iff.2 hfailed
    rw [if_neg hfailed, shift]
    by_cases htime : e.1.toInt + b.offset ≤ lastTime
    · rw [if_pos htime]
      simp only [hsame]
      by_cases hsize : b.size + eventSize e ≤ b.capacity
      · rw [dif_pos hsize]
        exact ⟨fun _ => ⟨hgood, htime, hsize⟩, fun _ => hgood⟩
      · rw [dif_neg hsize]
        exact ⟨fun h => (by cases h), fun h => absurd h.2.2 hsize⟩
    · rw [if_neg htime]
      exact ⟨fun h => (by cases h), fun h => absurd h.2.1 htime⟩

theorem add_of_kept {b : Backlog} {e : Int64 × Atom} (h : (b.add e).failed = false) :
    (b.add e).size = b.size + eventSize e ∧ (b.add e).events = b.events ++ later b.offset [e] := by
  obtain ⟨hgood, htime, hsize⟩ := (failed_add_iff b e).1 h
  have hsame : eventSize (Int64.ofInt (e.1.toInt + b.offset), e.2) = eventSize e := rfl
  unfold add
  rw [if_neg (by rw [hgood]; exact Bool.false_ne_true), shift, if_pos htime]
  simp only [hsame]
  rw [dif_pos hsize]
  exact ⟨rfl, List.reverse_cons⟩

/-- No event of a block is dropped exactly when all times stay times and there is room for all. -/
theorem failed_foldl_iff (b : Backlog) (events : List (Int64 × Atom)) :
    (events.foldl add b).failed = false ↔
      b.failed = false ∧ (∀ e ∈ events, e.1.toInt + b.offset ≤ lastTime) ∧
        b.size + (encodeEvents events).length ≤ b.capacity := by
  induction events generalizing b with
  | nil =>
      refine ⟨fun h => ⟨h, fun _ he => absurd he List.not_mem_nil, b.size_le⟩, fun h => h.1⟩
  | cons e rest ih =>
      obtain ⟨hoffset, -, -, hcapacity⟩ := frame_add b e
      rw [List.foldl_cons, ih, hoffset, hcapacity, List.forall_mem_cons, length_encodeEvents,
        length_encodeEvents, List.map_cons, List.sum_cons]
      constructor
      · rintro ⟨hkept, hrest, hsize⟩
        obtain ⟨hgood, htime, -⟩ := (failed_add_iff b e).1 hkept
        rw [(add_of_kept hkept).1, Nat.add_assoc] at hsize
        exact ⟨hgood, ⟨htime, hrest⟩, hsize⟩
      · rintro ⟨hgood, ⟨htime, hrest⟩, hsize⟩
        have hkept : (b.add e).failed = false := (failed_add_iff b e).2 ⟨hgood, htime, by omega⟩
        rw [(add_of_kept hkept).1, Nat.add_assoc]
        exact ⟨hkept, hrest, hsize⟩

theorem events_foldl {b : Backlog} {events : List (Int64 × Atom)}
    (h : (events.foldl add b).failed = false) :
    (events.foldl add b).events = b.events ++ later b.offset events := by
  induction events generalizing b with
  | nil => exact (List.append_nil _).symm
  | cons e rest ih =>
      have hkept : (b.add e).failed = false := ((failed_foldl_iff (b.add e) rest).1 h).1
      have hrest := ih h
      rw [(frame_add b e).1, (add_of_kept hkept).2, List.append_assoc] at hrest
      exact hrest

/-- A backlog that has not failed when a block has been put aside holds the events of the block
too. -/
theorem events_appended {b : Backlog} {events : List (Int64 × Atom)} {frames : UInt32}
    (h : (b.appended events frames).failed = false) :
    (b.appended events frames).events = b.events ++ later b.offset events :=
  events_foldl h

theorem length_events (b : Backlog) :
    (encodeEvents b.events).length = b.size - Atom.headerSize := by
  rw [length_encodeEvents, events, List.map_reverse, List.sum_reverse, b.size_eq,
    Nat.add_sub_cancel_left]

theorem sequence_eq (b : Backlog) :
    b.sequence = Atom.encode (b.schema.id .sequence) (encodeEvents b.events) := by
  have hmod := length_encodeEvents_mod b.events
  have hpad : padded (Atom.headerSize + (encodeEvents b.events).length)
      - (Atom.headerSize + (encodeEvents b.events).length) = 0 := by
    unfold padded Atom.headerSize
    omega
  rw [sequence, Atom.encode, hpad, ← length_events]
  exact (List.append_nil _).symm

theorem parse_sequence {b : Backlog} (hsize : (encodeEvents b.events).length < 2 ^ 32) :
    Atom.parse b.sequence
      = some (Atom.ofBody (b.schema.id .sequence) (encodeEvents b.events)) := by
  have hparse := Atom.parse_encode (b.schema.id .sequence) (encodeEvents b.events) [] hsize
  rwa [List.append_nil, ← sequence_eq] at hparse

theorem eventsOf_sequence {b : Backlog} (hdistinct : b.schema.vocabulary.Distinct)
    (hwhole : Whole b.events) (hsize : (encodeEvents b.events).length < 2 ^ 32) :
    eventsOf b.schema (Atom.parse b.sequence) = b.events := by
  rw [parse_sequence hsize]
  exact Atom.events_sequence (Schema.kindOf_id hdistinct (by decide)) hwhole

end Backlog

/-! ## All inputs -/

namespace Host

theorem putAside_spec (frames : UInt32) (backlogs : List Backlog) (inputs : List Buffer)
    (signals : SignalQueue) :
    (∃ (after : List Backlog) (signals' : SignalQueue),
      putAside frames backlogs inputs signals = .ok (after, signals') ∧
        after.length = backlogs.length ∧
        ∀ (port : Nat) (b : Backlog), backlogs[port]? = some b → ∃ b', after[port]? = some b' ∧
          b.append ((inputs[port]?).bind Buffer.atom?) frames = .ok b') ∨
    putAside frames backlogs inputs signals = .error .addition ∧
      ∃ b ∈ backlogs, 2 ^ 32 ≤ b.blocks + 1 := by
  induction backlogs generalizing inputs signals with
  | nil => exact .inl ⟨[], signals, rfl, rfl, fun port b hb => by cases hb⟩
  | cons first rest ih =>
      rw [putAside]
      have happend := first.append_eq (inputs.head?.bind Buffer.atom?) frames
      by_cases hblocks : first.blocks + 1 < 2 ^ 32
      · rw [if_pos hblocks] at happend
        generalize first.appended _ frames = after at happend
        rw [happend]
        rcases ih inputs.tail (if after.failed && !first.failed then signals.push .stashOverflow
          else signals) with ⟨others, signals', hrest, hlength, hports⟩ | ⟨hrest, b, hb, hblocks⟩
        · refine .inl ⟨after :: others, signals', ?_, congrArg (· + 1) hlength, fun port b hb => ?_⟩
          · simp only [bind, Except.bind, hrest]
            rfl
          · cases port with
            | zero =>
                cases hb
                refine ⟨after, rfl, ?_⟩
                rw [← List.head?_eq_getElem?]
                exact happend
            | succ port =>
                obtain ⟨b', hafter, hb'⟩ := hports port b hb
                refine ⟨b', hafter, ?_⟩
                rw [← List.getElem?_tail]
                exact hb'
        · refine .inr ⟨?_, b, List.mem_cons_of_mem _ hb, hblocks⟩
          simp only [bind, Except.bind, hrest]
      · rw [if_neg hblocks] at happend
        rw [happend]
        exact .inr ⟨rfl, first, List.mem_cons_self, Nat.not_lt.1 hblocks⟩

end Host

end BlockHost
