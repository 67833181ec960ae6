import BlockHost.Heap.Growth
import BlockHost.Proofs.Actions

/-!
# Growth and the blocks leave each other alone

Which regions a heap has, whether it waits for one more, and what it has asked for make up its plan
(`Heap.Plan`). Nothing that is done to blocks touches the plan: neither a block that is taken, given
back or moved, nor a call that is refused or comes to a halt in the middle, through whatever pointer
it was made (`takeBlock_keeps`, `giveBack_keeps`, `moveBlock_keeps`). So a call of a client changes
the plan only where it checks for growth at its end, and there in one of two ways: it asks for the
next region, or finds that there is none (`Asks`).
-/

namespace BlockHost.Heap

/-- What growth goes by. -/
structure Plan where
  /-- Index and size of every region. -/
  regions : List (UInt32 × Nat)
  baseSize : Nat
  maxRegions : Nat
  awaiting : Bool
  complete : Bool
  requests : List Nat
  requestCount : Nat

/-- The plan of a heap. -/
def plan (h : Heap) : Plan where
  regions := h.segments.map fun s => (s.region.index, s.region.size)
  baseSize := h.baseSize
  maxRegions := h.maxRegions
  awaiting := h.awaiting
  complete := h.complete
  requests := h.requests
  requestCount := h.requestCount

theorem plan_create {supply : Supply} {baseSize maxRegions : Nat} {h : Heap}
    (hcreate : create supply baseSize maxRegions = .ok h) :
    h.plan = { regions := [(0, baseSize)], baseSize
               maxRegions := max 1 (min maxRegions regionLimit)
               awaiting := false, complete := false, requests := [], requestCount := 0 } := by
  rw [create] at hcreate
  obtain ⟨region, hregion, hrest⟩ := of_bind_ok hcreate
  obtain ⟨-, -, rfl⟩ := Region.acquire_ok_iff.1 hregion
  cases hrest
  rfl

/-- Nothing has been done that growth goes by. -/
def SamePlan (h h' : Heap) : Prop :=
  h'.plan = h.plan

instance : IsPreorder Heap SamePlan where
  refl _ := rfl
  trans _ _ _ h h' := Eq.trans h' h

section SamePlan

variable {h h' : Heap}

theorem SamePlan.regionCount (hsame : SamePlan h h') : h'.regionCount = h.regionCount := by
  have hregions := congrArg (fun p => p.regions.length) hsame
  simp only [plan, List.length_map] at hregions
  exact hregions

theorem SamePlan.space (hsame : SamePlan h h') : h'.space = h.space := by
  have hregions := congrArg (fun p => (p.regions.map Prod.snd).sum) hsame
  simp only [plan, List.map_map] at hregions
  exact hregions

/-- A segment may change as long as its region keeps its name and its size. -/
theorem samePlan_set {position : Nat} {s s' : Segment} (hs : h.segments[position]? = some s)
    (hindex : s'.region.index = s.region.index) (hsize : s'.region.size = s.region.size) :
    SamePlan h { h with segments := h.segments.set position s' } := by
  have hregions : (h.segments.set position s').map (fun s => (s.region.index, s.region.size))
      = h.segments.map fun s => (s.region.index, s.region.size) := by
    obtain ⟨hlt, rfl⟩ := List.getElem?_eq_some_iff.1 hs
    have hlt' : position < (h.segments.map fun s => (s.region.index, s.region.size)).length := by
      rwa [List.length_map]
    have hsame : (s'.region.index, s'.region.size)
        = (h.segments.map fun s => (s.region.index, s.region.size))[position] := by
      rw [List.getElem_map, hindex, hsize]
    rw [List.map_set, hsame, List.set_getElem_self]
  simp only [SamePlan, plan, hregions]

end SamePlan

/-! ## Actions on blocks -/

section Blocks

open BlockHost.Action (Keeps keeps_get keeps_modify keeps_pure keeps_throw)

variable {α : Type}

theorem crash_keeps (fault : Fault) : Keeps SamePlan (crash fault : HeapAction α) :=
  keeps_throw _

theorem refuse_keeps (cause : HeapFailure) : Keeps SamePlan (refuse cause : HeapAction α) :=
  keeps_throw _

theorem modify_keeps {g : Heap → Heap} (hg : ∀ h, SamePlan h (g h)) :
    Keeps SamePlan (modify g : HeapAction PUnit) :=
  keeps_modify hg

theorem segment_keeps (position : Nat) : Keeps SamePlan (segment position) := by
  intro h
  rw [segment]
  split <;> exact refl h

theorem checkRange_keeps (s : Segment) (start len : Nat) :
    Keeps SamePlan (checkRange s start len) := by
  unfold checkRange
  split
  · exact keeps_pure _
  · exact crash_keeps _

/-- What is done to the segment at a position, and to it alone. -/
theorem segment_bind_keeps {position : Nat} {f : Segment → Segment}
    (hindex : ∀ s, (f s).region.index = s.region.index)
    (hsize : ∀ s, (f s).region.size = s.region.size) :
    Keeps SamePlan (do
      let s ← segment position
      modify fun h => { h with segments := h.segments.set position (f s) }) := by
  intro h
  cases hs : h.segments[position]? with
  | none =>
      have hrun : segment position h
          = .error (.crashed (.index h.segments.length position)) h := by
        rw [segment, hs]
      rw [Action.bind_error hrun]
      exact refl h
  | some s =>
      have hrun : segment position h = .ok s h := by rw [segment, hs]
      rw [Action.bind_ok hrun]
      exact samePlan_set hs (hindex s) (hsize s)

theorem setMemory_keeps (position : Nat) (memory : Memory) :
    Keeps SamePlan (setMemory position memory) :=
  segment_bind_keeps (fun _ => rfl) fun _ => rfl

theorem setTop_keeps (position top : Nat) : Keeps SamePlan (setTop position top) :=
  segment_bind_keeps (fun _ => rfl) fun _ => rfl

theorem load_keeps (position start len : Nat) : Keeps SamePlan (load position start len) :=
  (segment_keeps position).bind fun s => (checkRange_keeps s start len).bind fun _ => keeps_pure _

theorem store_keeps (position start : Nat) (bs : Bytes) :
    Keeps SamePlan (store position start bs) :=
  (segment_keeps position).bind fun s => (checkRange_keeps s start bs.length).bind fun _ =>
    setMemory_keeps position _

theorem writeHeader_keeps (position start size tag : Nat) :
    Keeps SamePlan (writeHeader position start size tag) :=
  (store_keeps position start _).bind fun _ => store_keeps position (start + 4) _

theorem file_keeps (b : Block) : Keeps SamePlan (file b) :=
  keeps_get.bind fun _ => (writeHeader_keeps _ _ _ _).bind fun _ =>
    (store_keeps _ _ _).bind fun _ => modify_keeps (by exact fun _ => rfl)

theorem unfile_keeps (c : SizeClass) : Keeps SamePlan (unfile c) := by
  refine keeps_get.bind fun _ => (load_keeps _ _ _).bind fun _ =>
    (modify_keeps (by exact fun _ => rfl)).bind fun _ => ?_
  split
  · exact (modify_keeps (by exact fun _ => rfl)).bind fun _ =>
      (load_keeps _ _ _).bind fun _ => keeps_pure _
  · exact (load_keeps _ _ _).bind fun _ => keeps_pure _

theorem occupy_keeps (b : Block) (need : Nat) : Keeps SamePlan (occupy b need) := by
  have hrest : Keeps SamePlan (do
      if leastBlock ≤ b.size - need then
        file ⟨b.segment, b.start + need, b.size - need⟩
      writeHeader b.segment b.start (if leastBlock ≤ b.size - need then need else b.size) usedTag
      return (⟨UInt32.ofNat b.segment, UInt32.ofNat (b.start + headerSize)⟩ : Pointer)) := by
    split
    · exact (file_keeps _).bind fun _ => (writeHeader_keeps _ _ _ _).bind fun _ => keeps_pure _
    · exact (writeHeader_keeps _ _ _ _).bind fun _ => keeps_pure _
  rw [occupy]
  split
  · exact (crash_keeps _).bind fun _ => hrest
  · exact hrest

theorem extend_keeps (need left : Nat) : Keeps SamePlan (extend need left) := by
  induction left with
  | zero => exact refuse_keeps _
  | succ left ih =>
      rw [extend]
      refine keeps_get.bind fun h => (segment_keeps _).bind fun s => ?_
      split
      · exact (setTop_keeps _ _).bind fun _ => occupy_keeps _ need
      · split
        · exact refuse_keeps _
        · refine (setTop_keeps _ _).bind fun _ => ?_
          split
          · exact (file_keeps _).bind fun _ =>
              (modify_keeps (by exact fun _ => rfl)).bind fun _ => ih
          · exact (modify_keeps (by exact fun _ => rfl)).bind fun _ => ih

theorem takeBlock_keeps (request : Nat) : Keeps SamePlan (takeBlock request) := by
  rw [takeBlock]
  split
  · exact refuse_keeps _
  · refine keeps_get.bind fun h => ?_
    split
    · exact (unfile_keeps _).bind fun b => occupy_keeps b _
    · exact extend_keeps _ _

theorem liveBlock_keeps (p : Pointer) : Keeps SamePlan (liveBlock p) := by
  intro h
  rw [liveBlock]
  split <;> exact refl h

theorem giveBack_keeps (p : Pointer) : Keeps SamePlan (giveBack p) := by
  refine (liveBlock_keeps p).bind fun b => keeps_get.bind fun h =>
    (segment_keeps _).bind fun s => ?_
  split
  · exact (setTop_keeps _ _).bind fun _ => store_keeps _ _ _
  · exact file_keeps b

theorem copyContent_keeps (source target : Pointer) (len : Nat) :
    Keeps SamePlan (copyContent source target len) := by
  rw [copyContent]
  split
  · refine (segment_keeps _).bind fun s => (checkRange_keeps _ _ _).bind fun _ => ?_
    split
    · exact (crash_keeps _).bind fun _ => setMemory_keeps _ _
    · exact setMemory_keeps _ _
  · exact (segment_keeps _).bind fun t => (checkRange_keeps _ _ _).bind fun _ =>
      (segment_keeps _).bind fun s => (checkRange_keeps _ _ _).bind fun _ => setMemory_keeps _ _

theorem moveBlock_keeps (p : Pointer) (old new : Nat) : Keeps SamePlan (moveBlock p old new) := by
  refine (liveBlock_keeps p).bind fun b => ?_
  split
  · exact refuse_keeps _
  · next need _ =>
      have hmove : Keeps SamePlan (do
          let q ← takeBlock new
          copyContent p q (min (min old new) (b.size - headerSize))
          giveBack p
          return q) :=
        (takeBlock_keeps new).bind fun q => (copyContent_keeps p q _).bind fun _ =>
          (giveBack_keeps p).bind fun _ => keeps_pure q
      have hgrow : Keeps SamePlan (do
          let h ← get
          let s ← segment b.segment
          if b.segment = h.current ∧ b.start + b.size = s.top ∧ b.start + need ≤ s.region.size then
            setTop b.segment (b.start + need)
            store b.segment b.start (Bytes.ofNat 4 need)
            return p
          let q ← takeBlock new
          copyContent p q (min (min old new) (b.size - headerSize))
          giveBack p
          return q) := by
        refine keeps_get.bind fun h => (segment_keeps _).bind fun s => ?_
        split
        · exact (setTop_keeps _ _).bind fun _ => (store_keeps _ _ _).bind fun _ => keeps_pure p
        · exact hmove
      split
      · exact keeps_pure p
      · exact hgrow

end Blocks

/-! ## Checking for growth -/

/-- When more than half of the space is used, a region has been asked for or there is none to ask
for, unless the queue of requests was full. -/
def Watched (h : Heap) : Prop :=
  h.space / 2 < h.used → h.awaiting = true ∨ h.complete = true ∨ h.maxRegions ≤ h.requests.length

/-- How a call of a client may change the plan: not at all, or by the check at its end, when it
began with nothing in flight and ends with more than half of the space used. -/
inductive Asks (p : Plan) (h : Heap) : Prop
  | kept (hplan : h.plan = p)
  | ended (hidle : p.awaiting = false) (hopen : p.complete = false) (hhigh : h.space / 2 < h.used)
      (hfull : p.maxRegions ≤ p.regions.length) (hplan : h.plan = { p with complete := true })
  | sent (hidle : p.awaiting = false) (hopen : p.complete = false) (hhigh : h.space / 2 < h.used)
      (hleft : p.regions.length < p.maxRegions) (hroom : p.requests.length < p.maxRegions)
      (hplan : h.plan =
        { p with
          awaiting := true
          requests := p.requests ++ [p.regions.length]
          requestCount := p.requestCount + 1 })

theorem length_regions (h : Heap) : h.plan.regions.length = h.regionCount :=
  List.length_map _

theorem askForGrowth_asks (h : Heap) : Asks h.plan (askForGrowth h) ∧ (askForGrowth h).Watched := by
  have hcount := h.length_regions
  rw [askForGrowth]
  split
  · next hbusy =>
      refine ⟨.kept rfl, fun _ => ?_⟩
      rcases Bool.or_eq_true_iff.1 hbusy with hbusy | hbusy
      · exact .inl hbusy
      · exact .inr (.inl hbusy)
  · next hbusy =>
      obtain ⟨hidle, hopen⟩ := Bool.or_eq_false_iff.1 (Bool.eq_false_iff.2 hbusy)
      split
      · next hlow => exact ⟨.kept rfl, fun hhigh => absurd hlow (Nat.not_le.2 hhigh)⟩
      · next hhigh =>
          have hhigh : h.space / 2 < h.used := Nat.not_le.1 hhigh
          split
          · next hfull =>
              exact ⟨.ended hidle hopen hhigh (hcount ▸ hfull) rfl, fun _ => .inr (.inl rfl)⟩
          · next hleft =>
              split
              · next hroom =>
                  refine ⟨.sent hidle hopen hhigh (hcount ▸ Nat.not_le.1 hleft) hroom ?_,
                    fun _ => .inl rfl⟩
                  rw [hcount]
                  rfl
              · next hroom => exact ⟨.kept rfl, fun _ => .inr (.inr (Nat.not_lt.1 hroom))⟩

/-- What a call leaves: a plan that has changed by the check alone, and a heap that is watched,
unless the call came to a halt. -/
def Checked {α : Type} (h : Heap) (r : EStateM.Result (Stop HeapFailure) Heap α) : Prop :=
  Asks h.plan (Action.left r) ∧
    (h.Watched → (∃ fault h', r = .error (.crashed fault) h') ∨ (Action.left r).Watched)

theorem Checked.of_asks {α : Type} {h h' : Heap} {r : EStateM.Result (Stop HeapFailure) Heap α}
    (hleft : Action.left r = askForGrowth h') (hsame : SamePlan h h') : Checked h r := by
  obtain ⟨hasks, hwatched⟩ := askForGrowth_asks h'
  rw [Checked, hleft, ← (hsame : h'.plan = h.plan)]
  exact ⟨hasks, fun _ => .inr hwatched⟩

theorem settled_checked {α : Type} {blocks : HeapAction α} (hblocks : Action.Keeps SamePlan blocks)
    (account : Nat → Except Fault Nat) (h : Heap) : Checked h (settled blocks account h) := by
  have hsame := hblocks h
  rw [settled]
  cases hrun : blocks h with
  | ok a mid =>
      rw [hrun] at hsame
      simp only
      cases account mid.used with
      | ok used => exact .of_asks rfl hsame
      | error fault => exact ⟨.kept hsame, fun _ => .inl ⟨fault, mid, rfl⟩⟩
  | error stop mid =>
      rw [hrun] at hsame
      cases stop with
      | refused cause => exact .of_asks rfl hsame
      | crashed fault => exact ⟨.kept hsame, fun _ => .inl ⟨fault, mid, rfl⟩⟩

theorem allocate_checked (h : Heap) (size : Nat) : Checked h (allocate size h) :=
  settled_checked (takeBlock_keeps size) _ h

theorem reallocate_checked (h : Heap) (p : Pointer) (old new : Nat) :
    Checked h (reallocate p old new h) :=
  settled_checked (moveBlock_keeps p old new) _ h

theorem free_checked (h : Heap) (p : Pointer) (size : Nat) : Checked h (free p size h) :=
  settled_checked (giveBack_keeps p) _ h

theorem Checked.map {α β : Type} {x : HeapAction α} {h : Heap} (hx : Checked h (x h)) (f : α → β) :
    Checked h ((x >>= fun a => pure (f a)) h) := by
  cases hrun : x h with
  | ok a mid =>
      rw [hrun] at hx
      rw [Action.bind_ok hrun]
      refine ⟨hx.1, fun hh => ?_⟩
      rcases hx.2 hh with ⟨_, _, hcrash⟩ | hwatched
      · cases hcrash
      · exact .inr hwatched
  | error stop mid =>
      rw [hrun] at hx
      rw [Action.bind_error hrun]
      refine ⟨hx.1, fun hh => ?_⟩
      rcases hx.2 hh with ⟨fault, _, hcrash⟩ | hwatched
      · cases hcrash
        exact .inl ⟨fault, mid, rfl⟩
      · exact .inr hwatched

theorem resize_checked (h : Heap) (p : Option Pointer) (old new : Nat) :
    Checked h (resize p old new h) := by
  cases p with
  | none =>
      cases new with
      | zero => exact ⟨.kept rfl, fun hh => .inr hh⟩
      | succ n => exact (allocate_checked h (n + 1)).map some
  | some p =>
      cases new with
      | zero => exact (free_checked h p old).map fun _ => none
      | succ n => exact (reallocate_checked h p old (n + 1)).map some

theorem write_samePlan {h h' : Heap} {p : Pointer} {bs : Bytes} (hrun : h.write p bs = some h') :
    SamePlan h h' ∧ h'.used = h.used := by
  obtain ⟨b, -, hrest⟩ := Option.bind_eq_some_iff.1 hrun
  obtain ⟨s, hs, hrest⟩ := Option.bind_eq_some_iff.1 hrest
  split at hrest
  · cases hrest
  · cases hrest
    exact ⟨samePlan_set hs rfl rfl, rfl⟩

theorem Watched.of_samePlan {h h' : Heap} (hh : h.Watched) (hsame : SamePlan h h')
    (hused : h'.used = h.used) : h'.Watched := by
  intro hhigh
  rw [hused, hsame.space] at hhigh
  have hawaiting := congrArg Plan.awaiting hsame
  have hcomplete := congrArg Plan.complete hsame
  have hmax := congrArg Plan.maxRegions hsame
  have hrequests := congrArg Plan.requests hsame
  simp only [plan] at hawaiting hcomplete hmax hrequests
  rw [hawaiting, hcomplete, hmax, hrequests]
  exact hh hhigh

end BlockHost.Heap
