import BlockHost.Proofs.Reuse

/-!
# What the operations on blocks do, whatever the memory says

`Booked` is about heaps whose headers and links say who owns what. A client that goes on using a pointer
it has given back can make them say anything, and still much of a heap cannot be touched in that way:
where the segments end, how far they have been used, which one is the current one, and for which classes
the bitmap has a bit. That much is `Sane`. It is kept by every operation on blocks, through any pointer
and with any content of the memory, also when the operation is brought down in its middle.

A sane heap is enough to say when a request is refused (`Sane.exhausts_iff`), because the search for a
block looks at the bitmap and at the tops, and at the memory only once it has found one.
-/

namespace BlockHost.Heap

open BlockHost.Action (Keeps Under keeps_get keeps_modify keeps_pure keeps_throw)

/-- The segments are as they should be, and the bitmap says which classes have a first block. -/
structure Sane (h : Heap) : Prop where
  sound : h.ground.Sound
  occupied : ∀ c : SizeClass, h.occupied.getLsbD c = true ↔ h.heads.get c ≠ noLink

section Sane

variable {h h' : Heap} {i : Nat}

theorem Sane.of_same (hs : Sane h) (hground : h'.ground = h.ground) (hheads : h'.heads = h.heads)
    (hoccupied : h'.occupied = h.occupied) : Sane h' := by
  refine ⟨hground ▸ hs.sound, fun c => ?_⟩
  rw [hheads, hoccupied]
  exact hs.occupied c

theorem Sane.withMemory (hs : Sane h) (i : Nat) (m : Memory) : Sane (h.withMemory i m) :=
  hs.of_same (ground_withMemory h i m) rfl rfl

theorem Sane.withTop (hs : Sane h) {top : Nat} (hle : top ≤ h.lengthAt h.current)
    (hmod : top % 8 = 0) : Sane (h.withTop h.current top) := by
  have hcur : h.current < h.segments.length := hs.sound.current_lt
  refine ⟨?_, hs.occupied⟩
  rw [ground_withTop hcur]
  exact hs.sound.setTop hle hmod

/-- A block inside a segment has a link that leads somewhere. -/
theorem Sane.link_ne (hs : Sane h) {b : Block} (hsegment : b.segment < h.segments.length)
    (hstart : b.start < h.lengthAt b.segment) : link b.segment b.start ≠ noLink := by
  have hlength : h.lengthAt b.segment < 2 ^ 32 := hs.sound.length_lt hsegment
  have hcount : h.segments.length ≤ 16 := Nat.le_trans hs.sound.count_le hs.sound.regions_le
  rw [link_eq (by omega), noLink]
  omega

theorem Sane.pushed (hs : Sane h) {b : Block} (hlink : link b.segment b.start ≠ noLink) :
    Sane (h.pushed b) := by
  refine ⟨hs.sound, fun c => ?_⟩
  show _ ↔ (h.withHead (SizeClass.floor b.size) (link b.segment b.start)).heads.get c ≠ noLink
  rw [getLsbD_pushed, get_heads_withHead, hs.occupied c]
  split
  · next hc => exact ⟨fun _ => hlink, fun _ => Or.inr hc⟩
  · next hc => exact ⟨fun hor => hor.resolve_right hc, Or.inl⟩

theorem Sane.popped (hs : Sane h) {c : SizeClass} (hc : h.occupied.getLsbD c = true) (next : Nat) :
    Sane (h.popped c next) := by
  refine ⟨hs.sound, fun d => ?_⟩
  show _ ↔ (h.withHead c next).heads.get d ≠ noLink
  rw [getLsbD_popped, get_heads_withHead]
  split
  · next hd =>
      subst hd
      exact ⟨fun hbit hno => hbit.2 ⟨rfl, hno⟩, fun hno => ⟨hc, fun hboth => hno hboth.2⟩⟩
  · next hd =>
      rw [hs.occupied d]
      exact ⟨fun hbit => hbit.1, fun hne => ⟨hne, fun heq => hd heq.1.symm⟩⟩

theorem Booked.sane {k : Books} (hk : Booked h k) : Sane h := by
  refine ⟨hk.tiled.sound, fun c => ?_⟩
  have hlt : ∀ b ∈ k.filed c, link b.segment b.start < noLink :=
    fun b hb => hk.link_lt (hk.mem_of_filed hb)
  rw [hk.occupied c]
  exact not_congr ((hk.linked c).eq_nil_iff hlt).symm

theorem Sane.filed (hs : Sane h) {b : Block} (hsegment : b.segment < h.segments.length)
    (hstart : b.start < h.lengthAt b.segment) : Sane (h.filed b) :=
  (hs.withMemory _ _).pushed (hs.link_ne hsegment hstart)

theorem Sane.leftBehind (hs : Sane h) (hnext : h.current + 1 < h.segments.length) :
    Sane h.leftBehind := by
  have hcur : h.current < h.segments.length := hs.sound.current_lt
  have hfull : Sane (h.withTop h.current (h.lengthAt h.current)) :=
    hs.withTop (Nat.le_refl _) (hs.sound.length_mod hcur)
  refine ⟨sound_leftBehind hs.sound hnext, ?_⟩
  rw [Heap.leftBehind]
  split
  · next hrest =>
      unfold leastBlock at hrest
      refine (hfull.filed (b := ⟨h.current, h.topAt h.current, _⟩) ?_ ?_).occupied
      · rw [length_segments_withTop]
        exact hcur
      · rw [lengthAt_withTop]
        simp only
        omega
  · exact hfull.occupied

theorem Sane.raised (hs : Sane h) {need : Nat} (hmod : need % 8 = 0)
    (hfit : h.topAt h.current + need ≤ h.lengthAt h.current) : Sane (h.raised need) := by
  have htop : h.topAt h.current % 8 = 0 := hs.sound.top_mod h.current
  exact (hs.withTop hfit (by omega)).withMemory _ _

end Sane

/-! ## Operations that are never refused -/

/-- A sane heap is left, and not because of a refusal. -/
def Calm {α : Type} : EStateM.Result (Stop HeapFailure) Heap α → Prop
  | .ok _ h => Sane h
  | .error (.crashed _) h => Sane h
  | .error (.refused _) _ => False

section Calm

variable {α β : Type} {h h' : Heap} {x : HeapAction α} {f : α → HeapAction β}

theorem Calm.bind (hx : Calm (x h)) (hf : ∀ a mid, x h = .ok a mid → Sane mid → Calm (f a mid)) :
    Calm ((x >>= f) h) := by
  cases hrun : x h with
  | ok a mid =>
      rw [hrun] at hx
      rw [Action.bind_ok hrun]
      exact hf a mid hrun hx
  | error e mid =>
      rw [hrun] at hx
      rw [Action.bind_error hrun]
      match e with
      | .crashed _ => exact hx

theorem Sane.crash (hs : Sane h) (fault : Fault) : Calm (Heap.crash fault h (α := α)) :=
  hs

theorem segment_eq (h : Heap) (i : Nat) : Heap.segment i h =
    if hi : i < h.segments.length then .ok h.segments[i] h
    else .error (.crashed (.index h.segments.length i)) h := by
  split
  · next hi => exact segment_ok hi
  · next hi => rw [Heap.segment, List.getElem?_eq_none (Nat.le_of_not_lt hi)]

theorem setMemory_eq (h : Heap) (i : Nat) (m : Memory) : Heap.setMemory i m h =
    if i < h.segments.length then .ok () (h.withMemory i m)
    else .error (.crashed (.index h.segments.length i)) h := by
  split
  · next hi => exact setMemory_ok hi m
  · next hi =>
      refine Action.bind_error ?_
      rw [segment_eq, dif_neg hi]

theorem Sane.setMemory (hs : Sane h) (i : Nat) (m : Memory) : Calm (Heap.setMemory i m h) := by
  rw [setMemory_eq]
  split
  · exact hs.withMemory i m
  · exact hs

/-- A part of a segment is looked at, and then something is done. -/
theorem Sane.range (hs : Sane h) (i start len : Nat) {f : Segment → HeapAction β}
    (hf : ∀ s, i < h.segments.length → start + len ≤ h.lengthAt i → Calm (f s h)) :
    Calm ((do
      let s ← Heap.segment i
      Heap.checkRange s start len
      f s) h) := by
  by_cases hi : i < h.segments.length
  · rw [Action.bind_ok (segment_ok hi)]
    obtain ⟨-, hl, -⟩ := answers_of_lt hi
    by_cases hlen : start + len ≤ h.segments[i].region.size
    · rw [Action.bind_ok (checkRange_ok hlen)]
      exact hf _ hi (hl ▸ hlen)
    · have hrun : Heap.checkRange h.segments[i] start len h
          = .error (.crashed (.range h.segments[i].region.size start len)) h := by
        rw [Heap.checkRange, if_neg hlen]
        rfl
      rw [Action.bind_error hrun]
      exact hs
  · rw [Action.bind_error ((segment_eq h i).trans (dif_neg hi))]
    exact hs

/-- What is read does not change anything. -/
theorem Sane.load_bind (hs : Sane h) (i start len : Nat) {f : Bytes → HeapAction β}
    (hf : ∀ bs, Calm (f bs h)) : Calm ((Heap.load i start len >>= f) h) := by
  simp only [Heap.load, bind_assoc, pure_bind]
  exact hs.range i start len fun _ _ _ => hf _

theorem Sane.store (hs : Sane h) (i start : Nat) (bs : Bytes) : Calm (Heap.store i start bs h) :=
  hs.range i start bs.length fun _ _ _ => hs.setMemory i _

theorem Sane.writeHeader (hs : Sane h) (i start size tag : Nat) :
    Calm (Heap.writeHeader i start size tag h) :=
  (hs.store i start _).bind fun _ _ _ hs₁ => hs₁.store i (start + 4) _

/-- What is answered about a part of a segment was inside that segment. -/
theorem of_range_ok {i start len : Nat} {f : Segment → HeapAction β} {b : β}
    (hrun : (do
      let s ← Heap.segment i
      Heap.checkRange s start len
      f s) h = .ok b h') :
    ∃ hi : i < h.segments.length, start + len ≤ h.lengthAt i ∧ f h.segments[i] h = .ok b h' := by
  by_cases hi : i < h.segments.length
  · obtain ⟨-, hl, -⟩ := answers_of_lt hi
    rw [Action.bind_ok (segment_ok hi)] at hrun
    by_cases hlen : start + len ≤ h.segments[i].region.size
    · rw [Action.bind_ok (checkRange_ok hlen)] at hrun
      exact ⟨hi, hl ▸ hlen, hrun⟩
    · rw [Heap.checkRange, if_neg hlen] at hrun
      cases hrun
  · rw [Action.bind_error ((segment_eq h i).trans (dif_neg hi))] at hrun
    cases hrun

theorem of_store_ok {i start : Nat} {bs : Bytes} (hrun : Heap.store i start bs h = .ok () h') :
    i < h.segments.length ∧ start + bs.length ≤ h.lengthAt i := by
  obtain ⟨hi, hlen, -⟩ := of_range_ok hrun
  exact ⟨hi, hlen⟩

theorem of_load_ok {i start len : Nat} {bs : Bytes} (hrun : Heap.load i start len h = .ok bs h') :
    h' = h := by
  obtain ⟨hi, -, hpure⟩ :=
    of_range_ok (f := fun s => pure (s.region.memory.load start len)) hrun
  cases hpure
  rfl

theorem Sane.file (hs : Sane h) (b : Block) : Calm (Heap.file b h) := by
  rw [Heap.file, Action.get_bind]
  refine (hs.writeHeader _ _ _ _).bind fun _ mid _ hmid => ?_
  refine (hmid.store _ _ _).bind fun _ after hstore hafter => ?_
  obtain ⟨hsegment, hlen⟩ := of_store_ok hstore
  rw [Bytes.length_ofNat] at hlen
  exact hafter.pushed (hmid.link_ne hsegment (by omega))

theorem Sane.unfile (hs : Sane h) {c : SizeClass} (hc : h.occupied.getLsbD c = true) :
    Calm (Heap.unfile c h) := by
  rw [Heap.unfile, Action.get_bind]
  refine hs.load_bind _ _ _ fun bs => ?_
  have hpop := hs.popped hc (Bytes.toNat bs)
  rw [Action.modify_bind]
  unfold Heap.popped at hpop
  split
  · next hno =>
      rw [if_pos hno] at hpop
      rw [Action.modify_bind]
      exact hpop.load_bind _ _ _ fun _ => hpop
  · next hno =>
      rw [if_neg hno] at hpop
      exact hpop.load_bind _ _ _ fun _ => hpop

theorem Sane.occupy (hs : Sane h) (b : Block) (need : Nat) : Calm (Heap.occupy b need h) := by
  have hmark : ∀ {h₁ : Heap} (size : Nat), Sane h₁ → Calm ((do
      Heap.writeHeader b.segment b.start size usedTag
      return (⟨UInt32.ofNat b.segment, UInt32.ofNat (b.start + headerSize)⟩ : Pointer) :
        HeapAction Pointer) h₁) :=
    fun _ hs₁ => (hs₁.writeHeader _ _ _ _).bind fun _ _ _ hs₂ => hs₂
  rw [Heap.occupy]
  split
  · exact hs.crash _
  · simp only
    split
    · exact (hs.file _).bind fun _ _ _ hs₁ => hmark _ hs₁
    · exact hmark _ hs

theorem Sane.copyContent (hs : Sane h) (source target : Pointer) (len : Nat) :
    Calm (Heap.copyContent source target len h) := by
  rw [Heap.copyContent]
  split
  · refine hs.range _ _ _ fun s _ _ => ?_
    split
    · exact hs.crash _
    · exact hs.setMemory _ _
  · exact hs.range _ _ _ fun t _ _ => hs.range _ _ _ fun s _ _ => hs.setMemory _ _

end Calm

/-! ## Requests -/

/-- A request of some size finds neither a class that has a block for it nor a segment with room. -/
def Barren (h : Heap) (need : Nat) : Prop :=
  (SizeClass.ceil need).bind h.firstOccupied = none ∧ ¬ h.HasRoom need

/-- How a request ends in a sane heap: it is refused for lack of memory when there is nothing for it, and
only then. -/
def Sought (request : Nat) (h : Heap) : EStateM.Result (Stop HeapFailure) Heap Pointer → Prop
  | .ok _ h' => Sane h' ∧ ∃ need, sizeFor? request = some need ∧ ¬ h.Barren need
  | .error (.refused cause) h' =>
      cause = .outOfMemory ∧ Sane h' ∧ ∀ need, sizeFor? request = some need → h.Barren need
  | .error (.crashed _) h' => Sane h' ∧ ∃ need, sizeFor? request = some need ∧ ¬ h.Barren need

section Requests

variable {h h' : Heap} {need request : Nat}

theorem Calm.sought {r : EStateM.Result (Stop HeapFailure) Heap Pointer} (hr : Calm r)
    (hsize : sizeFor? request = some need) (hfound : ¬ h.Barren need) : Sought request h r := by
  match r with
  | .ok _ _ => exact ⟨hr, need, hsize, hfound⟩
  | .error (.crashed _) _ => exact ⟨hr, need, hsize, hfound⟩

/-- How the search of the rest of the segments ends in a sane heap. -/
def Searched (need : Nat) (h : Heap) : EStateM.Result (Stop HeapFailure) Heap Pointer → Prop
  | .ok _ h' => Sane h' ∧ h.HasRoom need
  | .error (.refused cause) h' => cause = .outOfMemory ∧ Sane h' ∧ ¬ h.HasRoom need
  | .error (.crashed _) _ => False

theorem Sane.extend (hs : Sane h) (hneed : leastBlock ≤ need) (hmod : need % 8 = 0) :
    Searched need h (Heap.extend need (h.segments.length - h.current) h) := by
  refine extend_induct (P := fun h r => Sane h → Searched need h r)
    hneed ?room ?last ?next hs.sound rfl hs
  case room =>
    intro h hsound hfit hs
    exact ⟨hs.raised hmod hfit, h.current, Nat.le_refl _, hsound.current_lt, hfit⟩
  case last =>
    intro h hsound hfit hlast hs
    refine ⟨rfl, hs, ?_⟩
    rintro ⟨i, hle, hlt, hhas⟩
    have hi : i = h.current := by omega
    exact hfit (hi ▸ hhas)
  case next =>
    intro h r hsound hfit hnext ih hs
    have hr := ih (hs.leftBehind hnext)
    have hroom := hasRoom_leftBehind hsound.current_lt hfit
    match r with
    | .ok _ _ => exact ⟨hr.1, hroom.1 hr.2⟩
    | .error (.refused _) _ => exact ⟨hr.1, hr.2.1, fun hhas => hr.2.2 (hroom.2 hhas)⟩

theorem Sane.takeBlock (hs : Sane h) (request : Nat) :
    Sought request h (Heap.takeBlock request h) := by
  rw [Heap.takeBlock]
  cases hsize : sizeFor? request with
  | none =>
      refine ⟨rfl, hs, fun need heq => ?_⟩
      rw [hsize] at heq
      cases heq
  | some need =>
      obtain ⟨hneed, -, hmod, -⟩ := sizeFor?_spec hsize
      simp only [Action.get_bind]
      cases hclass : (SizeClass.ceil need).bind h.firstOccupied with
      | none =>
          simp only
          have hsearched := hs.extend hneed hmod
          revert hsearched
          generalize Heap.extend need (h.segments.length - h.current) h = r
          intro hsearched
          cases r with
          | ok p h₁ => exact ⟨hsearched.1, need, hsize, fun hno => hno.2 hsearched.2⟩
          | error stop h₁ =>
              cases stop with
              | crashed fault => exact hsearched.elim
              | refused cause =>
                  refine ⟨hsearched.1, hsearched.2.1, fun need' heq => ?_⟩
                  rw [hsize] at heq
                  cases heq
                  exact ⟨hclass, hsearched.2.2⟩
      | some c =>
          obtain ⟨least, -, hfirst⟩ := Option.bind_eq_some_iff.1 hclass
          have hfound := List.find?_some hfirst
          simp only [Bool.and_eq_true, decide_eq_true_eq] at hfound
          have hcalm : Calm ((Heap.unfile c >>= fun b => Heap.occupy b need) h) :=
            (hs.unfile hfound.2).bind fun b _ _ hs₁ => hs₁.occupy b need
          refine hcalm.sought hsize fun hno => ?_
          have hnone := hno.1
          rw [hclass] at hnone
          cases hnone

theorem Sane.exhausts_iff (hs : Sane h) :
    Exhausts (allocate request) h ↔ ∀ need, sizeFor? request = some need → h.Barren need := by
  have hsought := hs.takeBlock request
  simp only [Exhausts, allocate, settled]
  cases hrun : Heap.takeBlock request h with
  | ok p h₁ =>
      rw [hrun] at hsought
      obtain ⟨-, need, hsize, hfound⟩ := hsought
      refine ⟨?_, fun hno => absurd (hno need hsize) hfound⟩
      rintro ⟨h', heq⟩
      cases heq
  | error stop h₁ =>
      rw [hrun] at hsought
      cases stop with
      | refused cause =>
          obtain ⟨rfl, -, hno⟩ := hsought
          exact ⟨fun _ => hno, fun _ => ⟨_, rfl⟩⟩
      | crashed fault =>
          obtain ⟨-, need, hsize, hfound⟩ := hsought
          refine ⟨?_, fun hno => absurd (hno need hsize) hfound⟩
          rintro ⟨h', heq⟩
          cases heq

end Requests

/-! ## Pointers -/

section Pointers

variable {h h' : Heap} {p q : Pointer} {b : Block}

theorem Calm.sane {α : Type} {r : EStateM.Result (Stop HeapFailure) Heap α} (hr : Calm r) :
    Sane (Action.left r) := by
  match r with
  | .ok _ _ => exact hr
  | .error (.crashed _) _ => exact hr

theorem Sought.sane {request : Nat} {r : EStateM.Result (Stop HeapFailure) Heap Pointer}
    (hr : Sought request h r) : Sane (Action.left r) := by
  match r with
  | .ok _ _ => exact hr.1
  | .error (.crashed _) _ => exact hr.1
  | .error (.refused _) _ => exact hr.2.1

theorem Sane.left_bind {α β : Type} {x : HeapAction α} {f : α → HeapAction β}
    (hx : Sane (Action.left (x h)))
    (hf : ∀ a mid, x h = .ok a mid → Sane mid → Sane (Action.left (f a mid))) :
    Sane (Action.left ((x >>= f) h)) := by
  cases hrun : x h with
  | ok a mid =>
      rw [hrun] at hx
      rw [Action.bind_ok hrun]
      exact hf a mid hrun hx
  | error e mid =>
      rw [hrun] at hx
      rw [Action.bind_error hrun]
      exact hx

theorem sane_of_ok {α : Type} {x : HeapAction α} {a : α} (hleft : Sane (Action.left (x h)))
    (hrun : x h = .ok a h') : Sane h' := by
  rwa [hrun] at hleft

theorem sane_of_error {α : Type} {x : HeapAction α} {e : Stop HeapFailure}
    (hleft : Sane (Action.left (x h))) (hrun : x h = .error e h') : Sane h' := by
  rwa [hrun] at hleft

theorem giveBack_none (hb : h.blockOf? p = none) :
    Heap.giveBack p h = .error (.refused .invalidPointer) h := by
  rw [Heap.giveBack, Action.bind_error (liveBlock_none hb)]

theorem moveBlock_none (hb : h.blockOf? p = none) (old new : Nat) :
    Heap.moveBlock p old new h = .error (.refused .invalidPointer) h := by
  rw [Heap.moveBlock, Action.bind_error (liveBlock_none hb)]

theorem write_none (hb : h.blockOf? p = none) (bs : Bytes) : h.write p bs = none := by
  rw [Heap.write, hb]
  rfl

theorem Sane.stop_le_length (hs : Sane h) (hb : h.blockOf? p = some b) :
    b.start + b.size ≤ h.lengthAt b.segment := by
  obtain ⟨-, -, -, -, -, hstop, -⟩ := of_blockOf? hb
  exact Nat.le_trans hstop (hs.sound.top_le b.segment)

theorem Sane.lowered (hs : Sane h) (hmod : b.start % 8 = 0)
    (hlen : b.start ≤ h.lengthAt b.segment) (hlast : h.AtFrontier b) : Sane (h.lowered b) := by
  have hdown : Sane (h.withTop b.segment b.start) := by
    rw [hlast.1] at hlen ⊢
    exact hs.withTop hlen hmod
  exact hdown.withMemory _ _

theorem Sane.grown (hs : Sane h) {need : Nat} (hgrid : b.start % 8 = 0) (hmod : need % 8 = 0)
    (hcurrent : b.segment = h.current) (hfit : b.start + need ≤ h.lengthAt b.segment) :
    Sane (h.grown b need) := by
  have hup : Sane (h.withTop b.segment (b.start + need)) := by
    rw [hcurrent] at hfit ⊢
    exact hs.withTop hfit (by omega)
  exact hup.withMemory _ _

theorem Sane.giveBack (hs : Sane h) (p : Pointer) : Sane (Action.left (Heap.giveBack p h)) := by
  cases hb : h.blockOf? p with
  | none =>
      rw [giveBack_none hb]
      exact hs
  | some b =>
      have hlen := hs.stop_le_length hb
      obtain ⟨-, -, -, hmod, -⟩ := of_blockOf? hb
      by_cases hlast : h.AtFrontier b
      · rw [giveBack_lowered hb hlen hlast]
        exact hs.lowered hmod (by omega) hlast
      · rw [giveBack_filed hb hlast]
        exact (hs.file b).sane

theorem Sane.moveBlock (hs : Sane h) (p : Pointer) (old new : Nat) :
    Sane (Action.left (Heap.moveBlock p old new h)) := by
  cases hb : h.blockOf? p with
  | none =>
      rw [moveBlock_none hb]
      exact hs
  | some b =>
      obtain ⟨-, -, -, hgrid, -⟩ := of_blockOf? hb
      cases hsize : sizeFor? new with
      | none =>
          rw [moveBlock_unsized hb hsize]
          exact hs
      | some need =>
          obtain ⟨-, -, hmod, -⟩ := sizeFor?_spec hsize
          by_cases hle : need ≤ b.size
          · rw [moveBlock_enough hb hsize hle]
            exact hs
          by_cases hgrow : h.AtFrontier b ∧ b.start + need ≤ h.lengthAt b.segment
          · rw [moveBlock_grown hb hsize hle hgrow]
            exact hs.grown hgrid hmod hgrow.1.1 hgrow.2
          · rw [moveBlock_copied hb hsize hle hgrow]
            exact Sane.left_bind (hs.takeBlock new).sane fun q _ _ hs₁ =>
              Sane.left_bind (hs₁.copyContent p q _).sane fun _ _ _ hs₂ =>
                Sane.left_bind (hs₂.giveBack p) fun _ _ _ hs₃ => hs₃

/-- A client's write changes nothing but bytes of the payload that its pointer leads to. -/
theorem of_write {bs : Bytes} (hrun : h.write p bs = some h') :
    ∃ b, h.blockOf? p = some b ∧ b.segment < h.segments.length ∧ bs.length + headerSize ≤ b.size ∧
      h' = h.withMemory b.segment ((h.memoryAt b.segment).store (b.start + headerSize) bs) := by
  obtain ⟨b, hb, hrun⟩ := Option.bind_eq_some_iff.1 hrun
  obtain ⟨-, hsegment, -, -, hsize, -, -⟩ := of_blockOf? hb
  obtain ⟨hm, -, -⟩ := answers_of_lt hsegment
  simp only [List.getElem?_eq_getElem hsegment] at hrun
  split at hrun
  · cases hrun
  next hlen =>
  cases hrun
  unfold leastBlock at hsize
  refine ⟨b, hb, hsegment, by unfold headerSize at *; omega, ?_⟩
  rw [withMemory, modify_eq_set hsegment, ← hm]

theorem Sane.write (hs : Sane h) {bs : Bytes} (hrun : h.write p bs = some h') : Sane h' := by
  obtain ⟨b, -, -, -, rfl⟩ := of_write hrun
  exact hs.withMemory _ _

theorem Sane.commit (hs : Sane h) {region : Region} (hrun : h.commit region = .ok h') :
    Sane h' := by
  obtain ⟨rfl, hroom, hsize⟩ := commit_eq hs.sound hrun
  refine ⟨?_, hs.occupied⟩
  rw [ground_append hsize]
  exact hs.sound.grow hroom

end Pointers

/-! ## Live pointers and any sizes -/

section AnySize

variable {h h' : Heap} {L : List Lease} {F : List Block} {l : Lease} {p : Pointer}

/-- Of the size that a client names when it reallocates, only as much counts as its block holds. -/
theorem moveBlock_old {b : Block} (hb : h.blockOf? p = some b) (old new : Nat) :
    moveBlock p old new h = moveBlock p (min old (b.size - headerSize)) new h := by
  have hlen : min (min (min old (b.size - headerSize)) new) (b.size - headerSize)
      = min (min old new) (b.size - headerSize) := by omega
  simp only [moveBlock]
  rw [Action.bind_ok (liveBlock_some hb), Action.bind_ok (liveBlock_some hb), hlen]

/-- A live block moves, whatever size its client names. -/
theorem Booked.moveBlock_any (hk : Booked h ⟨l :: L, F, []⟩) (old new : Nat) :
    ∃ l', l'.block = l.block ∧ Booked h ⟨l' :: L, F, []⟩ ∧
      Served (l' :: L) (fun b => l'.resized new b :: L) h
        (Heap.moveBlock l.block.pointer old new h) := by
  have hmem : l.block ∈ (Books.mk (l :: L) F []).blocks := hk.mem_of_lease List.mem_cons_self
  obtain ⟨-, -, hleast⟩ := hk.bounds hmem
  unfold leastBlock at hleast
  have hheld := hk.held l List.mem_cons_self
  have hk' := hk.replace ⟨l.block, min old (l.block.size - headerSize), nothingKnown⟩ rfl
    ⟨hheld.marked, by simp only [headerSize]; omega, fun i byte hi => by cases hi⟩
  refine ⟨⟨l.block, min old (l.block.size - headerSize), nothingKnown⟩, rfl, hk', ?_⟩
  rw [moveBlock_old (hk.blockOf? List.mem_cons_self)]
  exact hk'.moveBlock new

/-- A client writes to its payload. -/
theorem Booked.write {bs : Bytes} (hk : Booked h ⟨l :: L, F, []⟩)
    (hrun : h.write l.block.pointer bs = some h') :
    Booked h' ⟨{ l with content := nothingKnown } :: L, F, []⟩ := by
  obtain ⟨b, hb, -, hlen, rfl⟩ := of_write hrun
  rw [hk.blockOf? List.mem_cons_self] at hb
  cases hb
  exact hk.rewrite _ nothingKnown (fun x hx => Memory.byteAt_store_of_outside (by omega))
    fun i byte hi => by cases hi

end AnySize

end BlockHost.Heap
