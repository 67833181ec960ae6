import BlockHost.Proofs.CallEffects

/-!
# Frames open and close like brackets

A caller keeps the handles of all frames that it has opened, and may give any of them to any later call.
The writer knows a handle by two numbers alone: how many frames are open around it, and where its header
lies. Both must agree with the innermost open frame, and then that frame is closed.

That no other handle can agree is for lack of a second header in the same place. The offset never goes
back, and opening a frame takes the eight bytes of its header. A closed frame therefore stays closed,
although its depth comes again.

The frames are numbered as they are opened. A `Ledger`, which the writer does not have, notes where each
one was opened and which ones have been closed since. The open frames are then those of the ledger that
are not closed, the latest one innermost (`Bracketed`). Every call but a reset keeps this.
-/

namespace BlockHost.Writer

/-! ## The ledger -/

/-- Where a call has opened a frame, if it has. -/
def Desk.opens? (d : Desk) (c : Call) : Option Nat :=
  match c.run d.frames d.writer with
  | .ok (.opened _) _ => some d.writer.offset
  | _ => none

/-- The number of the frame whose check a closing call gets past, if it does. An overflow can then only
come of the padding. -/
def Desk.closes? (d : Desk) (c : Call) : Option Nat :=
  if d.writer.failed then none
  else
    match c.run d.frames d.writer with
    | .ok .done _ => c.closing?
    | .error .overflow _ => c.closing?
    | _ => none

/-- What has become of all frames so far. -/
structure Ledger where
  /-- Where each frame was opened, in the order in which they were. -/
  opened : List Nat
  /-- The numbers of the frames that have been closed, the last one first. -/
  closed : List Nat
deriving DecidableEq

namespace Ledger

/-- The ledger with what a call opens and closes. -/
def note (l : Ledger) (d : Desk) (c : Call) : Ledger :=
  ⟨l.opened ++ (d.opens? c).toList, (d.closes? c).toList ++ l.closed⟩

/-- The frame is the last one that was opened and not closed. -/
def Innermost (l : Ledger) (number : Nat) : Prop :=
  number < l.opened.length ∧ number ∉ l.closed ∧
    ∀ later < l.opened.length, number < later → later ∈ l.closed

instance (l : Ledger) (number : Nat) : Decidable (l.Innermost number) :=
  inferInstanceAs (Decidable (_ ∧ _ ∧ _))

end Ledger

/-- The ledger when calls have been made. -/
def Desk.ledger (d : Desk) (l : Ledger) : List Call → Ledger
  | [] => l
  | c :: calls => (d.step c).ledger (l.note d c) calls

/-! ## Closing, as it is seen -/

section Closes

variable {d : Desk} {c : Call} {number : Nat}

/-- The frame check is passed by the handles that agree with the innermost open frame. -/
theorem closes?_eq_some : d.closes? c = some number ↔
    c = .close number ∧ d.writer.failed = false ∧ ∃ frame top outer,
      d.frames[number]? = some frame ∧ d.writer.frames = top :: outer ∧
        top.isOf outer frame = true := by
  constructor
  · intro h
    unfold Desk.closes? at h
    split at h
    · cases h
    · next hfailed =>
        have hgood : d.writer.failed = false := Bool.eq_false_iff.2 hfailed
        by_cases hreset : c = .reset
        · subst hreset
          cases h
        · have heffect := effect_run d hreset
          generalize c.run d.frames d.writer = r at h heffect
          cases heffect with
          | @refused _ cause hfull =>
              cases cause with
              | overflow => exact absurd (hfull rfl) hfailed
              | _ => cases h
          | @idle _ answer hframe hdone =>
              cases answer with
              | done => exact absurd rfl hdone
              | _ => cases h
          | full _ hc => cases hc ▸ h
          | appended _ hc => cases Call.closing?_of_appends hc ▸ h
          | timed => cases h
          | opened => cases h
          | closed _ hframe hframes htop =>
              cases h
              exact ⟨rfl, hgood, _, _, _, hframe, hframes, htop⟩
          | torn _ hframe hframes htop =>
              cases h
              exact ⟨rfl, hgood, _, _, _, hframe, hframes, htop⟩
          | restarted => cases h
  · rintro ⟨rfl, hgood, frame, top, outer, hframe, hframes, htop⟩
    rw [Desk.closes?, run_close hframe, hgood, if_neg (by decide)]
    rcases close_top hgood hframes htop with h | h
    · rw [h]
      rfl
    · rw [h]
      rfl

end Closes

/-! ## The open frames in the ledger -/

/-- The open frames, by where their headers lie, are those with the given numbers. -/
inductive Stacked (frames : List Frame) : List Nat → List Nat → Prop where
  | nil : Stacked frames [] []
  | cons {number frame outer numbers} (hframe : frames[number]? = some frame)
      (hdepth : frame.depth = outer.length) (hrest : Stacked frames outer numbers) :
      Stacked frames (frame.header :: outer) (number :: numbers)

/-- Where the headers of the open frames lie, innermost first. -/
def headers (w : Writer) : List Nat :=
  w.frames.map OpenFrame.header

/-- The ledger is right about the frames of a desk. -/
structure Bracketed (d : Desk) (l : Ledger) : Prop where
  places : d.frames.map Frame.header = l.opened
  apart : l.opened.Pairwise (· < ·)
  written : ∀ header ∈ l.opened, header + Atom.headerSize ≤ d.writer.offset
  open_frames : ∃ numbers, Stacked d.frames d.writer.headers numbers ∧
    numbers.Pairwise (· > ·) ∧
    ∀ number, number ∈ numbers ↔ number < l.opened.length ∧ number ∉ l.closed
  once : l.closed.Nodup
  known : ∀ number ∈ l.closed, number < l.opened.length
  balance : d.writer.depth + l.closed.length = l.opened.length
  depth_le : d.writer.depth ≤ maxDepth

section Bracketed

variable {d : Desk} {l : Ledger} {c : Call}

theorem Stacked.more {frames : List Frame} {headers numbers : List Nat}
    (h : Stacked frames headers numbers) (frame : Frame) :
    Stacked (frames ++ [frame]) headers numbers := by
  induction h with
  | nil => exact .nil
  | cons hframe hdepth hrest ih =>
      have hlt := (List.getElem?_eq_some_iff.1 hframe).1
      exact .cons (by rwa [List.getElem?_append_left hlt]) hdepth ih

theorem Bracketed.length_opened (h : Bracketed d l) : d.frames.length = l.opened.length := by
  rw [← h.places, List.length_map]

/-- No two frames have their headers in one place. -/
theorem Bracketed.number_inj (h : Bracketed d l) {number other : Nat} {frame frame' : Frame}
    (hframe : d.frames[number]? = some frame) (hother : d.frames[other]? = some frame')
    (hheader : frame.header = frame'.header) : number = other := by
  have hplace : ∀ {n : Nat} {f : Frame}, d.frames[n]? = some f → l.opened[n]? = some f.header := by
    intro n f hf
    rw [← h.places, List.getElem?_map, hf, Option.map_some]
  have hnodup : l.opened.Nodup := h.apart.imp Nat.ne_of_lt
  have hlt : number < l.opened.length := (List.getElem?_eq_some_iff.1 (hplace hframe)).1
  exact (List.getElem?_inj hlt hnodup).1 ((hplace hframe).trans (hheader ▸ (hplace hother).symm))

/-- The handle that agrees with the innermost frame is the one of the frame on top of the ledger. -/
theorem Bracketed.numbers_of_top (h : Bracketed d l) {number : Nat} {frame : Frame}
    {top : OpenFrame} {outer : List OpenFrame} (hframe : d.frames[number]? = some frame)
    (hframes : d.writer.frames = top :: outer) (htop : top.isOf outer frame = true) :
    ∃ numbers, Stacked d.frames (outer.map OpenFrame.header) numbers ∧
      (number :: numbers).Pairwise (· > ·) ∧
      ∀ n, n ∈ number :: numbers ↔ n < l.opened.length ∧ n ∉ l.closed := by
  obtain ⟨numbers, hstacked, hsorted, hmem⟩ := h.open_frames
  have hheader : top.header = frame.header := (OpenFrame.isOf_iff.1 htop).2
  rw [headers, hframes, List.map_cons] at hstacked
  generalize hplace : top.header = place at hstacked
  cases hstacked with
  | cons hframe' hdepth hrest =>
      have hsame := h.number_inj hframe hframe' (hheader.symm.trans hplace)
      subst hsame
      exact ⟨_, hrest, hsorted, hmem⟩

/-- The innermost frame is the first of the open ones. -/
theorem Ledger.innermost_iff_head? {numbers : List Nat} (hsorted : numbers.Pairwise (· > ·))
    (hmem : ∀ number, number ∈ numbers ↔ number < l.opened.length ∧ number ∉ l.closed) {number : Nat} :
    l.Innermost number ↔ numbers.head? = some number := by
  constructor
  · rintro ⟨hlt, hopen, hlatest⟩
    cases numbers with
    | nil => cases (hmem number).2 ⟨hlt, hopen⟩
    | cons first rest =>
        obtain ⟨hfirst, hfirstopen⟩ := (hmem first).1 List.mem_cons_self
        rcases List.mem_cons.1 ((hmem number).2 ⟨hlt, hopen⟩) with rfl | hrest
        · rfl
        · have hgt := (List.pairwise_cons.1 hsorted).1 number hrest
          exact absurd (hlatest first hfirst hgt) hfirstopen
  · intro hhead
    obtain ⟨rest, rfl⟩ := List.head?_eq_some_iff.1 hhead
    obtain ⟨hlt, hopen⟩ := (hmem number).1 List.mem_cons_self
    refine ⟨hlt, hopen, fun later hlater hgt => Decidable.byContradiction fun hclosed => ?_⟩
    -- A later frame that is open would stand further in.
    rcases List.mem_cons.1 ((hmem later).2 ⟨hlater, hclosed⟩) with rfl | hrest
    · exact Nat.lt_irrefl _ hgt
    · exact Nat.lt_asymm hgt ((List.pairwise_cons.1 hsorted).1 later hrest)

/-- A handle gets past its frame check when it is the one of the innermost frame, as the ledger has it. -/
theorem Bracketed.closes?_iff (h : Bracketed d l) {number : Nat} :
    d.closes? (.close number) = some number ↔
      d.writer.failed = false ∧ l.Innermost number := by
  rw [closes?_eq_some]
  constructor
  · rintro ⟨-, hgood, frame', top, outer, hframe', hframes, htop⟩
    obtain ⟨numbers, -, hsorted, hmem⟩ := h.numbers_of_top hframe' hframes htop
    exact ⟨hgood, (Ledger.innermost_iff_head? hsorted hmem).2 rfl⟩
  · rintro ⟨hgood, hinnermost⟩
    obtain ⟨numbers, hstacked, hsorted, hmem⟩ := h.open_frames
    have hhead := (Ledger.innermost_iff_head? hsorted hmem).1 hinnermost
    cases hframes : d.writer.frames with
    | nil =>
        rw [headers, hframes] at hstacked
        cases hstacked
        cases hhead
    | cons top outer =>
        rw [headers, hframes, List.map_cons] at hstacked
        generalize hplace : top.header = place at hstacked
        cases hstacked with
        | @cons first frame' _ rest hframe' hdepth hrest =>
            cases hhead
            have hinside : outer.length = frame'.depth := by rw [hdepth, List.length_map]
            have htop : top.isOf outer frame' = true := OpenFrame.isOf_iff.2 ⟨hinside, hplace⟩
            exact ⟨rfl, hgood, frame', top, outer, hframe', rfl, htop⟩

/-! ## One call -/

/-- Calls that neither open nor close a frame. -/
theorem Bracketed.quiet (h : Bracketed d l) (w : Writer) (hoffset : d.writer.offset ≤ w.offset)
    (hheaders : w.headers = d.writer.headers) : Bracketed ⟨w, d.frames⟩ l := by
  have hdepth : w.depth = d.writer.depth := by
    have hlength := congrArg List.length hheaders
    rwa [headers, headers, List.length_map, List.length_map] at hlength
  obtain ⟨numbers, hstacked, hnumbers⟩ := h.open_frames
  exact {
    places := h.places
    apart := h.apart
    written := fun header hheader => Nat.le_trans (h.written header hheader) hoffset
    open_frames := ⟨numbers, by rwa [hheaders], hnumbers⟩
    once := h.once
    known := h.known
    balance := by rw [hdepth, h.balance]
    depth_le := hdepth ▸ h.depth_le }

/-- The new frame gets the next number, which is above all others. -/
theorem Bracketed.open_frame (h : Bracketed d l) (hdepth : d.writer.depth ≠ maxDepth) (term : Term)
    (kind : Composite) (head : Bytes) :
    Bracketed
      ⟨d.writer.opened term kind head, d.frames ++ [⟨d.writer.depth, d.writer.offset, kind⟩]⟩
      ⟨l.opened ++ [d.writer.offset], l.closed⟩ := by
  have hoffset : d.writer.offset + Atom.headerSize ≤ (d.writer.opened term kind head).offset := by
    simp only [opened, offset_withFrames, offset_append, List.length_append, Atom.length_header,
      Atom.headerSize]
    omega
  have hbalance := h.balance
  have hle := h.depth_le
  have hnew : ∀ number, number < (l.opened ++ [d.writer.offset]).length ↔
      number < l.opened.length ∨ number = l.opened.length := by
    intro number
    rw [List.length_append, List.length_singleton]
    omega
  obtain ⟨numbers, hstacked, hsorted, hmem⟩ := h.open_frames
  have hopen : ∀ number ∈ numbers, number < l.opened.length := by
    intro number hnumber
    exact ((hmem number).1 hnumber).1
  let frame : Frame := ⟨d.writer.depth, d.writer.offset, kind⟩
  have hframe : (d.frames ++ [frame])[l.opened.length]? = some frame := by
    rw [← h.length_opened, List.getElem?_concat_length]
  have hinside : frame.depth = d.writer.headers.length := by
    simp only [frame, headers, List.length_map, depth]
  exact {
    places := by rw [List.map_append, h.places]; rfl
    apart := by
      rw [List.pairwise_append]
      refine ⟨h.apart, List.pairwise_singleton _ _, ?_⟩
      intro header hheader offset hoffset
      have hbefore := h.written header hheader
      rw [List.mem_singleton.1 hoffset]
      unfold Atom.headerSize at hbefore
      omega
    written := by
      intro header hheader
      rcases List.mem_append.1 hheader with hheader | hheader
      · have hbefore := h.written header hheader
        exact Nat.le_trans hbefore (Nat.le_trans (Nat.le_add_right _ _) hoffset)
      · rw [List.mem_singleton.1 hheader]
        exact hoffset
    open_frames := by
      refine ⟨l.opened.length :: numbers, .cons hframe hinside (hstacked.more frame), ?_, ?_⟩
      · exact List.pairwise_cons.2 ⟨hopen, hsorted⟩
      · intro number
        rw [List.mem_cons, hmem, hnew]
        constructor
        · rintro (rfl | ⟨hlt, hclosed⟩)
          · exact ⟨.inr rfl, fun hclosed => Nat.lt_irrefl _ (h.known _ hclosed)⟩
          · exact ⟨.inl hlt, hclosed⟩
        · rintro ⟨hlt | heq, hclosed⟩
          · exact .inr ⟨hlt, hclosed⟩
          · exact .inl heq
    once := h.once
    known := fun number hnumber => (hnew number).2 (.inl (h.known number hnumber))
    balance := by
      show d.writer.depth + 1 + l.closed.length = (l.opened ++ [d.writer.offset]).length
      rw [List.length_append, List.length_singleton]
      omega
    depth_le := by
      show d.writer.depth + 1 ≤ maxDepth
      omega }

/-- The frame that is taken off is the one that is noted as closed. -/
theorem Bracketed.close_frame (h : Bracketed d l) {number : Nat} {frame : Frame} {top : OpenFrame}
    {outer : List OpenFrame} (hframe : d.frames[number]? = some frame)
    (hframes : d.writer.frames = top :: outer) (htop : top.isOf outer frame = true) (w : Writer)
    (hoffset : d.writer.offset ≤ w.offset) (houter : w.frames = outer) :
    Bracketed ⟨w, d.frames⟩ ⟨l.opened, number :: l.closed⟩ := by
  have hbalance := h.balance
  have hle := h.depth_le
  have hdepth : d.writer.depth = w.depth + 1 := by rw [depth, depth, hframes, houter]; rfl
  obtain ⟨numbers, hstacked, hsorted, hmem⟩ := h.numbers_of_top hframe hframes htop
  obtain ⟨hbelow, hrest⟩ := List.pairwise_cons.1 hsorted
  obtain ⟨hlt, hopen⟩ := (hmem number).1 List.mem_cons_self
  exact {
    places := h.places
    apart := h.apart
    written := fun header hheader => Nat.le_trans (h.written header hheader) hoffset
    open_frames := by
      refine ⟨numbers, by rwa [headers, houter], hrest, fun n => ?_⟩
      rw [List.mem_cons, not_or]
      constructor
      · intro hn
        obtain ⟨hnlt, hnopen⟩ := (hmem n).1 (List.mem_cons_of_mem _ hn)
        exact ⟨hnlt, Nat.ne_of_lt (hbelow n hn), hnopen⟩
      · rintro ⟨hnlt, hne, hnopen⟩
        exact List.mem_of_ne_of_mem hne ((hmem n).2 ⟨hnlt, hnopen⟩)
    once := List.nodup_cons.2 ⟨hopen, h.once⟩
    known := List.forall_mem_cons.2 ⟨hlt, h.known⟩
    balance := by
      show w.depth + (l.closed.length + 1) = l.opened.length
      omega
    depth_le := by
      show w.depth ≤ maxDepth
      omega }

/-- The ledger stays right, whatever the call does. -/
theorem Bracketed.step (h : Bracketed d l) (hreset : c ≠ .reset) :
    Bracketed (d.step c) (l.note d c) := by
  have heffect := effect_run d hreset
  unfold Ledger.note Desk.opens? Desk.closes? Desk.step
  generalize c.run d.frames d.writer = r at heffect ⊢
  cases heffect with
  | @refused _ cause hfull =>
      cases hw : d.writer.failed with
      | true => simpa [hw] using h
      | false =>
          cases cause with
          | overflow => simp [hw] at hfull
          | _ => simpa [hw] using h
  | @idle _ answer hframe hdone =>
      cases answer with
      | done => exact absurd rfl hdone
      | opened frame => cases hframe
      | _ => simpa [Answer.frame?] using h
  | full hgood hc => simpa [hgood, hc] using h.quiet d.writer.frozen (Nat.le_refl _) rfl
  | @appended _ bs hgood hc =>
      have hclosing := Call.closing?_of_appends hc
      simpa [hgood, hclosing, Answer.frame?] using
        h.quiet (d.writer.append bs) (Nat.le_add_right _ _) rfl
  | @timed t header last outer hgood hframes =>
      let w := (d.writer.append (Bytes.int64 t)).withFrames (⟨header, .sequence, t⟩ :: outer)
      have hheaders : w.headers = d.writer.headers := by
        rw [headers, headers, hframes]
        rfl
      simpa [hgood, Answer.frame?, Call.closing?] using h.quiet w (Nat.le_add_right _ _) hheaders
  | opened hgood hdepth hc =>
      simpa [hgood, Answer.frame?] using h.open_frame hdepth _ _ _
  | @closed number frame top outer hgood hframe hframes htop =>
      let fill := Bytes.zeros (padded d.writer.offset - d.writer.offset)
      have hclosed := h.close_frame hframe hframes htop ((d.writer.sized top outer).append fill)
        (Nat.le_add_right _ _) rfl
      simpa [hgood, Answer.frame?, Call.closing?] using hclosed
  | @torn number frame top outer hgood hframe hframes htop =>
      have hclosed := h.close_frame hframe hframes htop (d.writer.torn top outer) (Nat.le_refl _) rfl
      simpa [hgood, Call.closing?] using hclosed
  | @restarted number frame header last outer hgood hframe hframes htop =>
      let w := d.writer.restarted header outer
      have hheaders : w.headers = d.writer.headers := by
        rw [headers, headers, hframes]
        rfl
      simpa [hgood, Answer.frame?, Call.closing?] using h.quiet w (Nat.le_refl _) hheaders

/-- So it does from the first call on. -/
theorem Bracketed.after (h : Bracketed d l) (calls : List Call) (hcalls : .reset ∉ calls) :
    Bracketed (d.after calls) (d.ledger l calls) := by
  induction calls generalizing d l with
  | nil => exact h
  | cons c calls ih =>
      obtain ⟨hc, hrest⟩ := List.ne_and_not_mem_of_not_mem_cons hcalls
      exact ih (h.step hc.symm) hrest

theorem Bracketed.start (vocabulary : Vocabulary) (buffer : Buffer) (offset : Nat) :
    Bracketed ⟨startAt vocabulary buffer offset, []⟩ ⟨[], []⟩ where
  places := rfl
  apart := .nil
  written := nofun
  open_frames := ⟨[], .nil, .nil, by simp⟩
  once := .nil
  known := nofun
  balance := rfl
  depth_le := Nat.zero_le _

/-- No frame is open when the closed ones are all of them. -/
theorem Bracketed.depth_eq_zero_iff (h : Bracketed d l) :
    d.writer.depth = 0 ↔ ∀ number < l.opened.length, number ∈ l.closed := by
  obtain ⟨numbers, hstacked, -, hmem⟩ := h.open_frames
  constructor
  · intro hdepth number hnumber
    have hheaders : d.writer.headers = [] := by
      rw [headers, List.map_eq_nil_iff]
      exact List.length_eq_zero_iff.1 hdepth
    rw [hheaders] at hstacked
    cases hstacked
    refine Decidable.byContradiction fun hopen => ?_
    cases (hmem number).2 ⟨hnumber, hopen⟩
  · intro hall
    cases hframes : d.writer.frames with
    | nil => rw [depth, hframes, List.length_nil]
    | cons top outer =>
        rw [headers, hframes, List.map_cons] at hstacked
        generalize top.header = place at hstacked
        cases hstacked with
        | cons =>
            obtain ⟨hlt, hopen⟩ := (hmem _).1 List.mem_cons_self
            exact absurd (hall _ hlt) hopen

end Bracketed

/-! ## The size that is put in -/

section Size

variable {w : Writer} {top : OpenFrame} {outer : List OpenFrame}

theorem word32At?_sized (h : top.header + Atom.headerSize ≤ w.offset) (rest : Bytes) :
    ((w.sized top outer).written ++ rest).word32At? top.header
      = some (UInt32.ofNat (w.offset - top.header - Atom.headerSize)) := by
  have hwritten : (w.sized top outer).written = w.written.overwrite top.header
      (Bytes.word32 (UInt32.ofNat (w.offset - top.header - Atom.headerSize))) := written_putSize h
  have hfront := length_take_written (Nat.le_trans (Nat.le_add_right _ _) h)
  rw [hwritten, Bytes.overwrite_eq (by
    rw [length_written, Bytes.length_word32]
    unfold Atom.headerSize at h
    omega), List.append_assoc, List.append_assoc]
  have hword := Bytes.word32At?_append (w.written.take top.header)
    (w.written.drop (top.header + 4) ++ rest)
    (UInt32.ofNat (w.offset - top.header - Atom.headerSize))
  rw [hfront] at hword
  simpa using hword

end Size

/-- A close puts in how much was written behind the header. -/
theorem Bracketed.size_of_close {d : Desk} {l : Ledger} (h : Bracketed d l) {number : Nat} {frame : Frame}
    (hframe : d.frames[number]? = some frame) (hcloses : d.closes? (.close number) = some number) :
    (d.step (.close number)).writer.buffer.bytes.word32At? frame.header
      = some (UInt32.ofNat (d.writer.offset - (frame.header + Atom.headerSize))) := by
  obtain ⟨-, hgood, frame', top, outer, hframe', hframes, htop⟩ := closes?_eq_some.1 hcloses
  obtain rfl : frame = frame' := Option.some.inj (hframe.symm.trans hframe')
  have hheader : top.header = frame.header := (OpenFrame.isOf_iff.1 htop).2
  have hwritten : top.header + Atom.headerSize ≤ d.writer.offset := by
    have hplace : frame.header ∈ l.opened := by
      rw [← h.places]
      exact List.mem_map_of_mem (List.mem_of_getElem? hframe)
    rw [hheader]
    exact h.written _ hplace
  rw [Desk.writer_step, run_close hframe, ← hheader, ← Nat.sub_sub]
  rcases close_top hgood hframes htop with hclose | hclose
  · rw [hclose, Action.left, bytes_buffer, written_append, List.append_assoc]
    exact word32At?_sized hwritten _
  · rw [hclose, Action.left, bytes_buffer]
    exact @word32At?_sized d.writer top outer hwritten _

/-! ## All runs -/

/-- Whatever has been called since the start, with no reset: the handles are those of the frames that were
opened, each at the offset of then. One of them gets past the frame check of a close exactly when the
room has not run out and its frame is the last one that was opened and not closed. So no frame is closed
twice, and the size that goes into its header is the number of bytes written behind it. The depth is the
number of frames opened less the number closed, at most eight, and finishing answers exactly when the
room has not run out and all of them are closed. -/
theorem frames_close_once (vocabulary : Vocabulary) (buffer : Buffer) (offset : Nat)
    (calls : List Call) (hcalls : .reset ∉ calls) :
    let first : Desk := ⟨startAt vocabulary buffer offset, []⟩
    let d := first.after calls
    let l := first.ledger ⟨[], []⟩ calls
    d.frames.map Frame.header = l.opened ∧
      (∀ number < d.frames.length, d.closes? (.close number) = some number ↔
        d.writer.failed = false ∧ l.Innermost number) ∧
      l.closed.Nodup ∧
      (∀ number frame, d.frames[number]? = some frame →
        d.closes? (.close number) = some number → buffer.length < 2 ^ 32 →
        ∃ size, (d.step (.close number)).writer.buffer.bytes.word32At? frame.header = some size ∧
          size.toNat = d.writer.offset - (frame.header + Atom.headerSize)) ∧
      d.writer.depth + l.closed.length = l.opened.length ∧ d.writer.depth ≤ 8 ∧
      ((∃ size, d.writer.finish = .ok size) ↔
        d.writer.failed = false ∧ ∀ number < l.opened.length, number ∈ l.closed) := by
  intro first d l
  have h : Bracketed d l := (Bracketed.start vocabulary buffer offset).after calls hcalls
  refine ⟨h.places, fun number _ => h.closes?_iff, h.once, ?_, h.balance, h.depth_le, ?_⟩
  · intro number frame hframe hcloses hsmall
    refine ⟨_, h.size_of_close hframe hcloses, ?_⟩
    have hinside : d.writer.offset ≤ buffer.length :=
      (calls_contained vocabulary buffer offset calls).1
    rw [UInt32.toNat_ofNat_of_lt']
    show _ < 2 ^ 32
    omega
  · rw [← h.depth_eq_zero_iff]
    unfold finish
    cases d.writer.failed with
    | true => simp
    | false => by_cases hdepth : d.writer.depth = 0 <;> simp [hdepth]

/-- The inner sequence is closed, and a tuple is opened in its place. Its depth has come again, but the
handle of the sequence is still refused, and so is that of the outer sequence while the tuple is open. -/
theorem frames_close_once_stale :
    let calls : List Call :=
      [.openSequence, .time 0, .openSequence, .close 1, .time 1, .openTuple, .close 1, .scalar (.int 7)]
    let first : Desk := ⟨startAt ⟨fun t => UInt32.ofNat (Term.all.idxOf t)⟩ (.blank 80) 0, []⟩
    let d := first.after calls
    .reset ∉ calls ∧ d.frames.map Frame.header = [0, 16, 32] ∧
      d.closes? (.close 0) ≠ some 0 ∧ d.closes? (.close 1) ≠ some 1 ∧
      d.closes? (.close 2) = some 2 ∧ d.writer.depth = 2 ∧
      ∃ size, (d.step (.close 2)).writer.buffer.bytes.word32At? 32 = some size ∧ size.toNat = 16 := by
  intro calls first d
  have hcalls : .reset ∉ calls := by decide
  obtain ⟨hplaces, hcloses, -, hsizes, hbalance, -⟩ := frames_close_once
    ⟨fun t => UInt32.ofNat (Term.all.idxOf t)⟩ (.blank 80) 0 calls hcalls
  have hledger : first.ledger ⟨[], []⟩ calls = ⟨[0, 16, 32], [1]⟩ := by decide
  have hclose : d.closes? (.close 2) = some 2 :=
    (hcloses 2 (by decide)).2 ⟨by decide, by rw [hledger]; decide⟩
  refine ⟨hcalls, hplaces.trans (by rw [hledger]), fun h => ?_, fun h => ?_, hclose, ?_, ?_⟩
  · have hinnermost := ((hcloses 0 (by decide)).1 h).2
    rw [hledger] at hinnermost
    exact absurd hinnermost (by decide)
  · have hinnermost := ((hcloses 1 (by decide)).1 h).2
    rw [hledger] at hinnermost
    exact absurd hinnermost (by decide)
  · rw [hledger] at hbalance
    exact Nat.add_right_cancel hbalance
  · obtain ⟨size, hsize, hvalue⟩ := hsizes 2 ⟨1, 32, .tuple⟩ (by decide) hclose (by decide)
    exact ⟨size, hsize, hvalue.trans (by decide)⟩

end BlockHost.Writer
