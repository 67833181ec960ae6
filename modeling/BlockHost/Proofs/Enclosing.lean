import BlockHost.Proofs.CallEffects
import BlockHost.Proofs.EventStreams
import BlockHost.Proofs.Latching

/-!
# What is written into a frame

Between the call that opens a frame and the one that closes it anything may be called: atoms and frames are
written into it, bytes are appended that are no atoms, the times of inner sequences are restarted, and
calls are refused. As long as the frame stays open, none of this reaches in front of its header. What
has become of the frame when it is closed is therefore one atom, whose body is all that was written
since, and seen from outside that atom has been appended (`Writes.appended`).

The invariant is that the writer is the one in front of the frame, with a header of size zero and some
body appended to it (`Inside`). The calls that go back go to the header or into the content of the
innermost frame, and every frame further in has its header in that body.
-/

namespace BlockHost

/-- What is put in at the front leaves the back. -/
theorem Bytes.overwrite_append {front patch : Bytes} {start : Nat}
    (h : start + patch.length ≤ front.length) (back : Bytes) :
    overwrite (front ++ back) start patch = overwrite front start patch ++ back := by
  have hwhole : start + patch.length ≤ (front ++ back).length := by
    rw [List.length_append]
    omega
  rw [overwrite_eq h, overwrite_eq hwhole, List.take_append_of_le_length (by omega),
    List.drop_append_of_le_length h]
  simp

namespace Writer

/-! ## Going back inside what was appended -/

section Back

variable (w : Writer) (frames : List OpenFrame) (head : Bytes) {body : Bytes} {size : Nat}

theorem putSize_inside (hsize : size + Atom.headerSize ≤ body.length) :
    ∃ body', body'.length = body.length ∧
      ((w.append (head ++ body)).withFrames frames).putSize size
        = (w.append (head ++ body')).withFrames frames := by
  unfold Atom.headerSize at hsize
  let patch := (Bytes.word32 (UInt32.ofNat size)).reverse
  have hinside : size + 4 + patch.length ≤ body.reverse.length := by
    simp only [patch, List.length_reverse, Bytes.length_word32]
    omega
  -- The bytes are kept the last one first, so the body is in front.
  have hover : Bytes.overwrite ((head ++ body).reverse ++ w.behind) (size + 4) patch
      = (head ++ (Bytes.overwrite body.reverse (size + 4) patch).reverse).reverse ++ w.behind := by
    rw [List.reverse_append, List.append_assoc, Bytes.overwrite_append hinside]
    simp
  have hlength : (Bytes.overwrite body.reverse (size + 4) patch).reverse.length = body.length := by
    simp
  refine ⟨_, hlength, ?_⟩
  simp only [putSize, withFrames, append, patch, hover, List.length_append, hlength]

theorem revise_inside {f : Bytes → Bytes} (hf : ∀ bs, (f bs).length = bs.length)
    (hsize : size ≤ body.length) :
    ∃ body', body'.length = body.length ∧
      ((w.append (head ++ body)).withFrames frames).revise size f hf
        = (w.append (head ++ body')).withFrames frames := by
  let front := body.take (body.length - size)
  let content := body.drop (body.length - size)
  have hbody : head ++ body = (head ++ front) ++ content := by
    rw [List.append_assoc, List.take_append_drop]
  have hcontent : content.length = size := by
    rw [List.length_drop]
    omega
  refine ⟨front ++ f content, ?_, ?_⟩
  · rw [List.length_append, hf, ← List.length_append, List.take_append_drop]
  · rw [← List.append_assoc, hbody, ← hcontent]
    exact revise_append w (head ++ front) content frames f hf

end Back

/-! ## Frames inside a frame -/

/-- The frame at the offset of the first writer is open, and all frames that are further in have their
headers behind its own and in front of a bound. -/
inductive Nested (first : Writer) (kind : Composite) (bound : Nat) : List OpenFrame → Prop where
  | base (last : Int64) : Nested first kind bound (⟨first.offset, kind, last⟩ :: first.frames)
  | inner {f : OpenFrame} {outer : List OpenFrame} (hlow : first.offset + Atom.headerSize ≤ f.header)
      (hhigh : f.header + Atom.headerSize ≤ bound) (h : Nested first kind bound outer) :
      Nested first kind bound (f :: outer)

section Nested

variable {first : Writer} {kind : Composite} {bound : Nat} {frames outer : List OpenFrame}

theorem Nested.mono {more : Nat} (h : Nested first kind bound frames) (hle : bound ≤ more) :
    Nested first kind more frames := by
  induction h with
  | base last => exact .base last
  | inner hlow hhigh _ ih => exact .inner hlow (Nat.le_trans hhigh hle) ih

theorem Nested.depth_lt (h : Nested first kind bound frames) : first.depth < frames.length := by
  induction h with
  | base last => exact Nat.lt_succ_self _
  | inner _ _ _ ih => exact Nat.lt_succ_of_lt ih

theorem Nested.timed {header : Nat} {k : Composite} {last : Int64}
    (h : Nested first kind bound (⟨header, k, last⟩ :: outer)) (t : Int64) :
    Nested first kind bound (⟨header, k, t⟩ :: outer) := by
  cases h with
  | base => exact .base t
  | inner hlow hhigh h => exact .inner hlow hhigh h

theorem Nested.header_ge {top : OpenFrame} (h : Nested first kind bound (top :: outer)) :
    first.offset ≤ top.header := by
  cases h with
  | base => exact Nat.le_refl _
  | inner hlow _ _ => exact Nat.le_trans (Nat.le_add_right _ _) hlow

end Nested

/-- A frame is open whose header follows the first writer, and all that was done since was done behind
that header. -/
structure Inside (first : Writer) (type : UInt32) (kind : Composite) (w : Writer) : Prop where
  appended : ∃ body frames, w = (first.append (Atom.header type 0 ++ body)).withFrames frames
  nested : Nested first kind w.offset w.frames

/-- No call is a reset, and after each of them more than so many frames are open. -/
def Desk.StaysAbove (depth : Nat) (d : Desk) : List Call → Prop
  | [] => True
  | c :: calls => c ≠ .reset ∧ depth < (d.step c).writer.depth ∧ (d.step c).StaysAbove depth calls

instance Desk.decidableStaysAbove (depth : Nat) (d : Desk) :
    (calls : List Call) → Decidable (d.StaysAbove depth calls)
  | [] => .isTrue trivial
  | c :: calls =>
      have := (d.step c).decidableStaysAbove depth calls
      inferInstanceAs (Decidable (_ ∧ _ ∧ _))

section Inside

variable {first : Writer} {type : UInt32} {kind : Composite} {d : Desk} {c : Call}

theorem Inside.offset_ge {w : Writer} (h : Inside first type kind w) :
    first.offset + Atom.headerSize ≤ w.offset := by
  obtain ⟨body, frames, rfl⟩ := h.appended
  rw [offset_withFrames, offset_append, List.length_append, Atom.length_header, Atom.headerSize]
  omega

theorem Inside.append {w : Writer} (h : Inside first type kind w) (bs : Bytes) :
    Inside first type kind (w.append bs) := by
  refine ⟨?_, h.nested.mono (Nat.le_add_right _ _)⟩
  obtain ⟨body, frames, rfl⟩ := h.appended
  exact ⟨body ++ bs, frames, by rw [append_withFrames, append_append, List.append_assoc]⟩

theorem Inside.withFrames {w : Writer} (h : Inside first type kind w) {frames : List OpenFrame}
    (hframes : Nested first kind w.offset frames) : Inside first type kind (w.withFrames frames) := by
  refine ⟨?_, hframes⟩
  obtain ⟨body, other, rfl⟩ := h.appended
  exact ⟨body, frames, rfl⟩

/-- The size of an inner frame goes into the body. -/
theorem Inside.putSize {w : Writer} (h : Inside first type kind w) {size : Nat}
    (hsize : first.offset + Atom.headerSize + (size + Atom.headerSize) ≤ w.offset) :
    Inside first type kind (w.putSize size) := by
  refine ⟨?_, h.nested⟩
  obtain ⟨body, frames, rfl⟩ := h.appended
  rw [offset_withFrames, offset_append, List.length_append, Atom.length_header] at hsize
  have hbody : size + Atom.headerSize ≤ body.length := by
    unfold Atom.headerSize at *
    omega
  obtain ⟨body', -, hput⟩ := putSize_inside first frames (Atom.header type 0) hbody
  exact ⟨body', frames, hput⟩

theorem Inside.revise {w : Writer} (h : Inside first type kind w) {size : Nat}
    (hsize : first.offset + Atom.headerSize + size ≤ w.offset) {f : Bytes → Bytes}
    (hf : ∀ bs, (f bs).length = bs.length) : Inside first type kind (w.revise size f hf) := by
  refine ⟨?_, h.nested⟩
  obtain ⟨body, frames, rfl⟩ := h.appended
  rw [offset_withFrames, offset_append, List.length_append, Atom.length_header] at hsize
  have hbody : size ≤ body.length := by
    unfold Atom.headerSize at hsize
    omega
  obtain ⟨body', -, hrevise⟩ := revise_inside first frames (Atom.header type 0) hf hbody
  exact ⟨body', frames, hrevise⟩

/-- A call that leaves the frame open does nothing in front of it, or the room runs out. -/
theorem Inside.step (h : Inside first type kind d.writer) (hreset : c ≠ .reset)
    (hdepth : first.depth < (d.step c).writer.depth) :
    Inside first type kind (d.step c).writer ∨ (d.step c).writer.failed = true := by
  have heffect := effect_run d hreset
  rw [Desk.writer_step] at hdepth ⊢
  generalize c.run d.frames d.writer = r at heffect hdepth ⊢
  cases heffect with
  | refused => exact .inl h
  | idle => exact .inl h
  | full => exact .inr rfl
  | appended => exact .inl (h.append _)
  | timed _ hframes =>
      have hnested := h.nested
      rw [hframes] at hnested
      exact .inl ((h.append _).withFrames ((hnested.timed _).mono (Nat.le_add_right _ _)))
  | opened =>
      refine .inl ((h.append _).withFrames
        (.inner h.offset_ge ?_ (h.nested.mono (Nat.le_add_right _ _))))
      simp only [offset_append, List.length_append, Atom.length_header, Atom.headerSize]
      omega
  | closed _ _ hframes _ =>
      have hnested := h.nested
      rw [hframes] at hnested
      cases hnested with
      | base => exact absurd hdepth (Nat.lt_irrefl _)
      | inner hlow hhigh houter =>
          exact .inl (((h.putSize (by omega)).withFrames houter).append _)
  | torn => exact .inr rfl
  | restarted _ _ hframes _ =>
      have hnested := h.nested
      rw [hframes] at hnested
      have hlow := hnested.header_ge
      have hge := h.offset_ge
      exact .inl ((h.revise (by simp only at hlow; omega) _).withFrames (hnested.timed 0))

theorem Desk.StaysAbove.no_reset {depth : Nat} {calls : List Call} (h : d.StaysAbove depth calls) :
    .reset ∉ calls := by
  induction calls generalizing d with
  | nil => exact List.not_mem_nil
  | cons c calls ih =>
      obtain ⟨hreset, -, hrest⟩ := h
      exact List.not_mem_cons_of_ne_of_not_mem hreset.symm (ih hrest)

theorem Inside.after (h : Inside first type kind d.writer) {calls : List Call}
    (hcalls : d.StaysAbove first.depth calls) :
    Inside first type kind (d.after calls).writer ∨ (d.after calls).writer.failed = true := by
  induction calls generalizing d with
  | nil => exact .inl h
  | cons c calls ih =>
      obtain ⟨hreset, hdepth, hrest⟩ := hcalls
      rcases h.step hreset hdepth with hinside | hfailed
      · exact ih hinside hrest
      · right
        show ((d.step c).after calls).writer.failed = true
        rw [Desk.after_of_failed hfailed calls hrest.no_reset]
        exact hfailed

/-- Right behind the header the frame is open and nothing has been done. -/
theorem inside_opened (first : Writer) (term : Term) (kind : Composite) (head : Bytes) :
    Inside first (first.vocabulary.id term) kind (first.opened term kind head) :=
  ⟨⟨head, _, rfl⟩, .base 0⟩

/-- What lies behind a header that was just appended. -/
theorem drop_written_headed (w : Writer) (type : UInt32) (body : Bytes) :
    (w.append (Atom.header type 0 ++ body)).written.drop (w.offset + Atom.headerSize) = body := by
  have hfront : (w.written ++ Atom.header type 0).length = w.offset + Atom.headerSize := by
    rw [List.length_append, length_written, Atom.length_header]
    rfl
  rw [written_append, ← List.append_assoc]
  exact List.drop_left' hfront

/-- The close that takes the frame away makes an atom of what was appended behind its header. -/
theorem Inside.closed (h : Inside first type kind d.writer) (halign : first.offset % 8 = 0)
    {number : Nat} (hclose : d.Answers (.close number) .done)
    (hdepth : (d.step (.close number)).writer.depth = first.depth) :
    (d.step (.close number)).writer
      = first.append (Atom.encode type (d.writer.written.drop (first.offset + Atom.headerSize))) := by
  obtain ⟨after, hrun⟩ := hclose
  have hafter : (d.step (.close number)).writer = after := by rw [Desk.writer_step, hrun, Action.left]
  have heffect := effect_run d (c := .close number) (by simp)
  rw [hafter] at hdepth ⊢
  obtain ⟨body, frames, hwriter⟩ := h.appended
  have hbody : d.writer.written.drop (first.offset + Atom.headerSize) = body := by
    rw [hwriter]
    exact drop_written_headed first type body
  rw [hbody]
  rw [hrun] at heffect
  cases heffect with
  | appended _ hc => cases hc
  | idle _ hdone => exact absurd rfl hdone
  | @closed _ frame top outer hgood hframe hframes htop =>
      have hnested := h.nested
      rw [hframes] at hnested
      cases hnested with
      | inner _ _ houter => exact absurd hdepth (Nat.ne_of_gt houter.depth_lt)
      | base last =>
          have hfirst : first.failed = false := by rwa [hwriter] at hgood
          have hopen : frames = ⟨first.offset, kind, last⟩ :: first.frames := by
            rwa [hwriter] at hframes
          obtain ⟨hdepth, hheader⟩ := OpenFrame.isOf_iff.1 htop
          have happends := appends_close hfirst halign frame hdepth.symm hheader.symm type body kind last
          rw [← hopen, ← hwriter] at happends
          rw [run_close hframe] at hrun
          obtain ⟨_, mid, hmid, hdone⟩ := Action.of_bind_ok hrun
          cases hdone
          exact (happends.eq_of_ok hmid).2

end Inside

/-! ## One atom -/

/-- The calls write one atom: a single call that appends it, or a frame that is opened, filled in any way,
and closed. -/
inductive Desk.Writes (d : Desk) : List Call → Atom → Prop where
  | single {c : Call} {type : UInt32} {body : Bytes}
      (hatom : c.atom? d.writer.vocabulary = some (type, body)) (hdone : d.Answers c .done) :
      d.Writes [c] (.ofBody type body)
  | composite {c : Call} {term : Term} {kind : Composite} {head : Bytes} {frame : Frame}
      {inner : List Call} {number : Nat}
      (hc : c.opening? = some (term, kind, head)) (hopened : d.Answers c (.opened frame))
      (hinner : (d.step c).StaysAbove d.writer.depth inner)
      (hclosed : ((d.step c).after inner).Answers (.close number) .done)
      (hdepth : (((d.step c).after inner).step (.close number)).writer.depth = d.writer.depth) :
      d.Writes (c :: (inner ++ [.close number]))
        (.ofBody (d.writer.vocabulary.id term)
          (((d.step c).after inner).writer.written.drop (d.writer.offset + Atom.headerSize)))

section Writes

variable {d : Desk} {calls : List Call} {a : Atom}

/-- However it was written, the encoded atom is what has been appended. -/
theorem Desk.Writes.appended (h : d.Writes calls a) (halign : d.writer.offset % 8 = 0)
    (hv : d.writer.inVector = false) :
    (d.after calls).writer = d.writer.append (Atom.encode a.type a.body) ∧ d.writer.failed = false := by
  cases h with
  | @single c type body hatom hdone =>
      have hreset : c ≠ .reset := by
        rintro rfl
        cases hatom
      have hgood := hdone.good hreset
      obtain ⟨after, hrun⟩ := hdone
      obtain ⟨_, mid, hput, hdone⟩ := Action.of_bind_ok ((run_of_atom? hatom).symm.trans hrun)
      cases hdone
      refine ⟨?_, hgood⟩
      show (d.step c).writer = _
      rw [Desk.writer_step, hrun]
      exact ((appends_put hgood hv type body).eq_of_ok hput).2
  | @composite c term kind head frame inner number hc hopened hinner hclosed hdepth =>
      have hreset : c ≠ .reset := by
        rintro rfl
        cases hc
      have heffect := hopened.effect hreset
      generalize hafter : (d.step c).writer = after at heffect
      cases heffect with
      | idle hframe _ => cases hframe
      | opened hgood _ hc' =>
          cases hc.symm.trans hc'
          have hinside : Inside d.writer (d.writer.vocabulary.id term) kind (d.step c).writer :=
            hafter ▸ inside_opened d.writer term kind head
          have hlast : Inside d.writer (d.writer.vocabulary.id term) kind
              ((d.step c).after inner).writer := by
            rcases hinside.after hinner with hinside | hfailed
            · exact hinside
            · cases (hclosed.good (by simp)).symm.trans hfailed
          have hcalls : d.after (c :: (inner ++ [.close number]))
              = ((d.step c).after inner).step (.close number) := by
            simp [Desk.after]
          rw [hcalls]
          exact ⟨hlast.closed halign hclosed hdepth, hgood⟩

theorem Desk.Writes.whole (h : d.Writes calls a) (hsmall : a.body.length < 2 ^ 32) :
    a.body.length = a.size.toNat := by
  cases h with
  | single => exact (UInt32.toNat_ofNat_of_lt' hsmall).symm
  | composite => exact (UInt32.toNat_ofNat_of_lt' hsmall).symm

end Writes

end Writer

end BlockHost
