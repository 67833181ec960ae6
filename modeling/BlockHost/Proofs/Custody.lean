import BlockHost.Heap.Call
import BlockHost.Proofs.BlockSteps

/-!
# Clients and the pointers they have got

A client of a heap keeps every pointer that it was ever given, and can make a call through any of them. A
pointer is live from the call that gave it until the one that gives its block back. The heap itself does not
know which pointers are live. `Custody` knows: it goes through a run of calls beside the heap and keeps the
live pointers in a list.

What a call can do to the heap, the pointers and the list is said once (`Moves`), for any call through any
pointer. Two kinds of run are spoken of from there. In any run whatsoever the heap stays sane
(`run_sane`). In a run of careful calls the heap has books, and its leases are the live pointers
(`Kept.run`). A call is careful if it goes through a live pointer, with whatever sizes, or through one that
the heap refuses (`Careful`).
-/

namespace BlockHost.Heap

/-- Two heaps with the same blocks in the same memory. -/
structure SameBlocks (h h' : Heap) : Prop where
  segments : h'.segments = h.segments
  heads : h'.heads = h.heads
  occupied : h'.occupied = h.occupied
  current : h'.current = h.current
  baseSize : h'.baseSize = h.baseSize
  maxRegions : h'.maxRegions = h.maxRegions

section SameBlocks

variable {h h' : Heap}

theorem SameBlocks.refl (h : Heap) : SameBlocks h h :=
  ⟨rfl, rfl, rfl, rfl, rfl, rfl⟩

theorem sameBlocks_askForGrowth (h : Heap) : SameBlocks h (askForGrowth h) := by
  obtain ⟨hs, hh, ho, hc, hb, hm, -⟩ := askForGrowth_same h
  exact ⟨hs, hh, ho, hc, hb, hm⟩

theorem sameBlocks_counted (h : Heap) (used : Nat) :
    SameBlocks h (askForGrowth { h with used }) := by
  obtain ⟨hs, hh, ho, hc, hb, hm⟩ := sameBlocks_askForGrowth { h with used }
  exact ⟨hs, hh, ho, hc, hb, hm⟩

theorem SameBlocks.memoryAt (hsame : SameBlocks h h') (i : Nat) : h'.memoryAt i = h.memoryAt i := by
  simp only [Heap.memoryAt, hsame.segments]

theorem SameBlocks.blockOf? (hsame : SameBlocks h h') (p : Pointer) :
    h'.blockOf? p = h.blockOf? p := by
  simp only [Heap.blockOf?, hsame.segments]

theorem SameBlocks.ground (hsame : SameBlocks h h') : h'.ground = h.ground :=
  ground_of_same hsame.segments hsame.current hsame.baseSize hsame.maxRegions

theorem Booked.same {k : Books} (hk : Booked h k) (hsame : SameBlocks h h') : Booked h' k :=
  hk.of_same hsame.segments hsame.heads hsame.occupied hsame.current hsame.baseSize
    hsame.maxRegions

theorem Sane.same (hs : Sane h) (hsame : SameBlocks h h') : Sane h' :=
  hs.of_same hsame.ground hsame.heads hsame.occupied

theorem sameBlocks_takeRequest {index : Nat} (hrun : h.takeRequest = some (index, h')) :
    SameBlocks h h' := by
  rw [takeRequest] at hrun
  split at hrun
  · cases hrun
  cases hrun
  exact ⟨rfl, rfl, rfl, rfl, rfl, rfl⟩

end SameBlocks

/-! ## Calls and the live pointers -/

/-- A client, and those of its pointers that are live. -/
structure Custody where
  client : Client
  live : List Pointer

/-- The number of the pointer through which a call changes something. -/
def Call.through? : Call → Option Nat
  | .reallocate number _ _ => some number
  | .resize number _ _ => number
  | .free number _ => some number
  | .write number _ => some number
  | _ => none

/-- A call that can put bytes into a payload. -/
def Call.Fills : Call → Prop
  | .reallocate .. => True
  | .resize (some _) _ _ => True
  | .write .. => True
  | _ => False

namespace Custody

/-- The heap of the client. -/
def heap (c : Custody) : Heap :=
  c.client.heap

/-- All pointers that the client has got, live or not. -/
def given (c : Custody) : List Pointer :=
  c.client.pointers

/-- The live pointers without one of those that were given. -/
def without (c : Custody) (number : Nat) : List Pointer :=
  (c.given[number]?).elim c.live c.live.erase

/-- The pointers that are live after a call, going by its answer. -/
def liveAfter (c : Custody) : Call → Answer → List Pointer
  | .allocate _, .pointer p => p :: c.live
  | .resize none _ _, .pointer p => p :: c.live
  | .reallocate number _ _, .pointer q => q :: c.without number
  | .resize (some number) _ _, .pointer q => q :: c.without number
  | .resize (some number) _ _, .nothing => c.without number
  | .free number _, .done => c.without number
  | _, _ => c.live

/-- A call, unless it comes to a halt. -/
def step (c : Custody) (call : Call) : Except Fault (Answer × Custody) :=
  match call.run c.client with
  | .ok answer client => .ok (answer, ⟨client, c.liveAfter call answer⟩)
  | .error fault _ => .error fault

/-- A run of calls, none of which comes to a halt. -/
def run (c : Custody) : List Call → Except Fault Custody
  | [] => .ok c
  | call :: rest =>
      match c.step call with
      | .ok (_, c') => c'.run rest
      | .error fault => .error fault

/-- The client of a new heap. -/
def new (h : Heap) : Custody :=
  ⟨⟨h, []⟩, []⟩

/-- Where calls lead from a new heap, for whose first region there is memory. -/
def reached (s : Settings) (calls : List Call) : Option Custody :=
  (create .ample s.regionSize s.maxRegions).toOption.bind fun h => ((new h).run calls).toOption

/-- A call that goes through no pointer but a live one, or one that the heap does not take for live. -/
def Careful (c : Custody) (call : Call) : Prop :=
  ∀ number p, call.through? = some number → c.given[number]? = some p →
    p ∈ c.live ∨ c.heap.blockOf? p = none

/-- A run whose calls are careful. -/
def CarefulRun (c : Custody) : List Call → Prop
  | [] => True
  | call :: rest =>
      c.Careful call ∧ ∀ answer c', c.step call = .ok (answer, c') → c'.CarefulRun rest

/-- A run from a new heap whose calls are careful. -/
def CarefulFrom (s : Settings) (calls : List Call) : Prop :=
  ∀ h, create .ample s.regionSize s.maxRegions = .ok h → (new h).CarefulRun calls

instance (c : Custody) (call : Call) : Decidable (c.Careful call) :=
  decidable_of_iff (∀ p ∈ (call.through?.bind (c.given[·]?)).toList,
      p ∈ c.live ∨ c.heap.blockOf? p = none) <| by
    simp only [Option.mem_toList, Option.bind_eq_some_iff, Careful]
    exact ⟨fun h number p hnumber hp => h p ⟨number, hnumber, hp⟩,
      fun h p ⟨number, hnumber, hp⟩ => h number p hnumber hp⟩

instance decidableCarefulRun : (c : Custody) → (calls : List Call) → Decidable (c.CarefulRun calls)
  | _, [] => isTrue trivial
  | c, call :: rest =>
      match hstep : c.step call with
      | .ok (answer, c') =>
          have := decidableCarefulRun c' rest
          decidable_of_iff (c.Careful call ∧ c'.CarefulRun rest) <| by
            refine and_congr_right fun _ => ⟨fun h answer' c'' heq => ?_, fun h => h _ _ hstep⟩
            rw [hstep] at heq
            cases heq
            exact h
      | .error fault =>
          decidable_of_iff (c.Careful call) <| by
            refine ⟨fun h => ⟨h, fun answer c' heq => ?_⟩, And.left⟩
            rw [hstep] at heq
            cases heq

instance (s : Settings) (calls : List Call) : Decidable (CarefulFrom s calls) :=
  match hcreate : create .ample s.regionSize s.maxRegions with
  | .ok h =>
      decidable_of_iff ((new h).CarefulRun calls) <| by
        refine ⟨fun hrun h' heq => ?_, fun hrun => hrun h hcreate⟩
        rw [hcreate] at heq
        cases heq
        exact hrun
  | .error _ =>
      isTrue fun h heq => by
        rw [hcreate] at heq
        cases heq

/-- What a call can do. -/
inductive Moves (c : Custody) (call : Call) (c' : Custody) : Prop
  | idle (hsame : SameBlocks c.heap c'.heap) (hgiven : c'.given = c.given)
      (hlive : c'.live = c.live)
  | took {size : Nat} {p : Pointer} {h : Heap} (hrun : takeBlock size c.heap = .ok p h)
      (hsame : SameBlocks h c'.heap) (hgiven : c'.given = c.given ++ [p])
      (hlive : c'.live = p :: c.live)
  | lacked {size : Nat} {cause : HeapFailure} {h : Heap}
      (hrun : takeBlock size c.heap = .error (.refused cause) h) (hsame : SameBlocks h c'.heap)
      (hgiven : c'.given = c.given) (hlive : c'.live = c.live)
  | gave {number : Nat} {p : Pointer} {h : Heap} (hthrough : call.through? = some number)
      (hp : c.given[number]? = some p) (hrun : giveBack p c.heap = .ok () h)
      (hsame : SameBlocks h c'.heap) (hgiven : c'.given = c.given)
      (hlive : c'.live = c.live.erase p)
  | held {number : Nat} {p : Pointer} {cause : HeapFailure} {h : Heap}
      (hthrough : call.through? = some number) (hp : c.given[number]? = some p)
      (hrun : giveBack p c.heap = .error (.refused cause) h) (hsame : SameBlocks h c'.heap)
      (hgiven : c'.given = c.given) (hlive : c'.live = c.live)
  | moved {number old new : Nat} {p q : Pointer} {h : Heap} (hfills : call.Fills)
      (hthrough : call.through? = some number) (hp : c.given[number]? = some p)
      (hrun : moveBlock p old new c.heap = .ok q h) (hsame : SameBlocks h c'.heap)
      (hgiven : c'.given = c.given ++ [q]) (hlive : c'.live = q :: c.live.erase p)
  | stayed {number old new : Nat} {p : Pointer} {cause : HeapFailure} {h : Heap}
      (hthrough : call.through? = some number) (hp : c.given[number]? = some p)
      (hrun : moveBlock p old new c.heap = .error (.refused cause) h)
      (hsame : SameBlocks h c'.heap) (hgiven : c'.given = c.given) (hlive : c'.live = c.live)
  | wrote {number : Nat} {p : Pointer} {bs : Bytes} (hfills : call.Fills)
      (hthrough : call.through? = some number) (hp : c.given[number]? = some p)
      (hrun : c.heap.write p bs = some c'.heap) (hgiven : c'.given = c.given) (hlive : c'.live = c.live)
  | grew {region : Region} {h : Heap} (hblank : region.memory = .blank) (hsame : SameBlocks c.heap h)
      (hrun : h.commit region = .ok c'.heap) (hgiven : c'.given = c.given)
      (hlive : c'.live = c.live)

/-! ## What a call has done -/

section Inversion

variable {α : Type} {h h' : Heap} {c c' : Custody} {client : Client} {call : Call} {answer : Answer}
  {number old new size : Nat} {p : Pointer} {a : α} {cause : HeapFailure}
  {blocks : HeapAction α} {account : Nat → Except Fault Nat}

theorem of_settled_ok (hrun : settled blocks account h = .ok a h') :
    ∃ h₁, blocks h = .ok a h₁ ∧ SameBlocks h₁ h' := by
  rw [settled] at hrun
  split at hrun
  · next h₁ hblocks =>
      split at hrun
      · cases hrun
        exact ⟨h₁, hblocks, sameBlocks_counted h₁ _⟩
      · cases hrun
  · cases hrun
  · cases hrun

theorem of_settled_refused (hrun : settled blocks account h = .error (.refused cause) h') :
    ∃ h₁, blocks h = .error (.refused cause) h₁ ∧ SameBlocks h₁ h' := by
  rw [settled] at hrun
  split at hrun
  · split at hrun <;> cases hrun
  · next h₁ hblocks =>
      cases hrun
      exact ⟨h₁, hblocks, sameBlocks_askForGrowth h₁⟩
  · cases hrun

theorem of_map_some {x : HeapAction α} {a? : Option α} (hrun : (some <$> x) h = .ok a? h') :
    ∃ a, x h = .ok a h' ∧ a? = some a := by
  rw [map_eq_pure_bind] at hrun
  obtain ⟨a, mid, hx, hpure⟩ := Action.of_bind_ok hrun
  cases hpure
  exact ⟨a, hx, rfl⟩

theorem of_map_refused {x : HeapAction α}
    (hrun : (some <$> x) h = .error (.refused cause) h') : x h = .error (.refused cause) h' := by
  rw [map_eq_pure_bind] at hrun
  cases hx : x h with
  | ok a mid =>
      rw [Action.bind_ok hx] at hrun
      cases hrun
  | error e mid =>
      rw [Action.bind_error hx] at hrun
      cases hrun
      rfl

/-- How a call ends that may give a pointer. -/
theorem of_obtain {action : HeapAction (Option Pointer)} {client' : Client}
    (hrun : Client.obtain action client = .ok answer client') :
    (∃ p?, action client.heap = .ok p? client'.heap ∧ answer = p?.elim .nothing .pointer ∧
      client'.pointers = client.pointers ++ p?.toList) ∨
    ∃ cause, action client.heap = .error (.refused cause) client'.heap ∧
      answer = .refused cause ∧ client'.pointers = client.pointers := by
  rw [Client.obtain] at hrun
  split at hrun
  · next hact =>
      cases hrun
      exact Or.inl ⟨none, hact, rfl, (List.append_nil _).symm⟩
  · next p _ hact =>
      cases hrun
      exact Or.inl ⟨some p, hact, rfl, rfl⟩
  · next cause _ hact =>
      cases hrun
      exact Or.inr ⟨cause, hact, rfl, rfl⟩
  · cases hrun

/-- A call that allocates. -/
theorem moves_of_allocate (hrun : Client.obtain (some <$> allocate size) c.client = .ok answer client)
    (hpointer : ∀ p, c.liveAfter call (.pointer p) = p :: c.live)
    (hrefused : ∀ cause, c.liveAfter call (.refused cause) = c.live) :
    c.Moves call ⟨client, c.liveAfter call answer⟩ := by
  rcases of_obtain hrun with ⟨p?, hact, rfl, hgiven⟩ | ⟨cause, hact, rfl, hgiven⟩
  · obtain ⟨p, hallocate, rfl⟩ := of_map_some hact
    obtain ⟨h₁, hblocks, hsame⟩ := of_settled_ok hallocate
    exact .took hblocks hsame hgiven (hpointer p)
  · obtain ⟨h₁, hblocks, hsame⟩ := of_settled_refused (of_map_refused hact)
    exact .lacked hblocks hsame hgiven (hrefused cause)

/-- A call that reallocates. -/
theorem moves_of_reallocate (hfills : call.Fills) (hthrough : call.through? = some number)
    (hp : c.given[number]? = some p)
    (hrun : Client.obtain (some <$> reallocate p old new) c.client = .ok answer client)
    (hpointer : ∀ q, c.liveAfter call (.pointer q) = q :: c.without number)
    (hrefused : ∀ cause, c.liveAfter call (.refused cause) = c.live) :
    c.Moves call ⟨client, c.liveAfter call answer⟩ := by
  have hwithout : c.without number = c.live.erase p := by
    rw [without, hp]
    rfl
  rcases of_obtain hrun with ⟨q?, hact, rfl, hgiven⟩ | ⟨cause, hact, rfl, hgiven⟩
  · obtain ⟨q, hreallocate, rfl⟩ := of_map_some hact
    obtain ⟨h₁, hblocks, hsame⟩ := of_settled_ok hreallocate
    exact .moved hfills hthrough hp hblocks hsame hgiven (hwithout ▸ hpointer q)
  · obtain ⟨h₁, hblocks, hsame⟩ := of_settled_refused (of_map_refused hact)
    exact .stayed hthrough hp hblocks hsame hgiven (hrefused cause)

theorem memory_of_acquire {supply : Supply} {index : UInt32} {region : Region}
    (hregion : Region.acquire supply index size = .ok region) : region.memory = .blank := by
  obtain ⟨-, -, rfl⟩ := Region.acquire_ok_iff.1 hregion
  rfl

/-- A region that is added, or not. -/
theorem moves_of_addRegion {region : Except RegionFailure Region} {client₁ : Client}
    (hblank : ∀ r, region = .ok r → r.memory = .blank)
    (hsame : SameBlocks c.heap client₁.heap) (hgiven : client₁.pointers = c.given)
    (hrun : Client.addRegion region client₁ = .ok answer client)
    (hlive : c.liveAfter call answer = c.live) :
    c.Moves call ⟨client, c.liveAfter call answer⟩ := by
  cases region with
  | error cause =>
      cases hrun
      exact .idle hsame hgiven hlive
  | ok region =>
      simp only [Client.addRegion, Action.get_bind] at hrun
      cases hcommit : client₁.heap.commit region with
      | error cause =>
          rw [hcommit] at hrun
          cases hrun
          exact .idle hsame hgiven hlive
      | ok h₁ =>
          rw [hcommit] at hrun
          cases hrun
          exact .grew (hblank region rfl) hsame hcommit hgiven hlive

/-- A call through one of the client's pointers, and not without one. -/
theorem of_withPointer {f : Pointer → ClientAction Answer} {client₁ : Client}
    (hrun : Client.withPointer number f client₁ = .ok answer client) :
    (client₁.pointers[number]? = none ∧ answer = .noPointer ∧ client = client₁) ∨
      ∃ p, client₁.pointers[number]? = some p ∧ f p client₁ = .ok answer client := by
  rw [Client.withPointer, Action.get_bind] at hrun
  cases hp : client₁.pointers[number]? with
  | none =>
      rw [hp] at hrun
      cases hrun
      exact Or.inl ⟨rfl, rfl, rfl⟩
  | some p =>
      rw [hp] at hrun
      exact Or.inr ⟨p, rfl, hrun⟩

/-- A call that gives a block back. -/
theorem moves_of_free (hthrough : call.through? = some number) (hp : c.given[number]? = some p)
    (hrun : Heap.free p size c.heap = .ok () client.heap) (hgiven : client.pointers = c.given)
    (hlive : c.liveAfter call answer = c.without number) :
    c.Moves call ⟨client, c.liveAfter call answer⟩ := by
  have hwithout : c.without number = c.live.erase p := by
    rw [without, hp]
    rfl
  obtain ⟨h₁, hblocks, hsame⟩ := of_settled_ok hrun
  exact .gave hthrough hp hblocks hsame hgiven (hlive.trans hwithout)

theorem moves_of_free_refused (hthrough : call.through? = some number)
    (hp : c.given[number]? = some p)
    (hrun : Heap.free p size c.heap = .error (.refused cause) client.heap)
    (hgiven : client.pointers = c.given) (hlive : c.liveAfter call answer = c.live) :
    c.Moves call ⟨client, c.liveAfter call answer⟩ := by
  obtain ⟨h₁, hblocks, hsame⟩ := of_settled_refused hrun
  exact .held hthrough hp hblocks hsame hgiven hlive

/-- A change of size is one of the three other calls. -/
theorem moves_of_resize {pointer : Option Nat}
    (hrun : (Call.resize pointer old new).run c.client = .ok answer client) :
    c.Moves (.resize pointer old new) ⟨client, c.liveAfter (.resize pointer old new) answer⟩ := by
  cases pointer with
  | none =>
      cases new with
      | zero =>
          rw [Call.run] at hrun
          rcases of_obtain hrun with ⟨p?, hact, rfl, hgiven⟩ | ⟨cause, hact, -, -⟩
          · obtain ⟨rfl, hheap⟩ := EStateM.Result.ok.inj hact
            have hsame : SameBlocks c.heap client.heap := hheap ▸ SameBlocks.refl _
            exact .idle hsame (hgiven.trans (List.append_nil _)) rfl
          · cases hact
      | succ n =>
          have hmap : Heap.resize none old (n + 1) = some <$> allocate (n + 1) := by
            rw [map_eq_pure_bind]
            rfl
          rw [Call.run, hmap] at hrun
          exact moves_of_allocate hrun (fun _ => rfl) fun _ => rfl
  | some number =>
      rcases of_withPointer hrun with ⟨-, rfl, rfl⟩ | ⟨p, hp, hrun⟩
      · exact .idle (SameBlocks.refl _) rfl rfl
      cases new with
      | zero =>
          rcases of_obtain hrun with ⟨p?, hact, rfl, hgiven⟩ | ⟨cause, hact, rfl, hgiven⟩
          · obtain ⟨_, mid, hfree, hpure⟩ := Action.of_bind_ok hact
            cases hpure
            exact moves_of_free rfl hp hfree (hgiven.trans (List.append_nil _)) rfl
          · cases hfree : Heap.free p old c.client.heap with
            | ok _ mid => cases (Action.bind_ok hfree).symm.trans hact
            | error e mid =>
                cases (Action.bind_error hfree).symm.trans hact
                exact moves_of_free_refused rfl hp hfree hgiven rfl
      | succ n =>
          have hmap : Heap.resize (some p) old (n + 1) = some <$> reallocate p old (n + 1) := by
            rw [map_eq_pure_bind]
            rfl
          rw [hmap] at hrun
          exact moves_of_reallocate trivial rfl hp hrun (fun _ => rfl) fun _ => rfl

theorem moves_of_run (hrun : call.run c.client = .ok answer client) :
    c.Moves call ⟨client, c.liveAfter call answer⟩ := by
  cases call with
  | allocate size => exact moves_of_allocate hrun (fun _ => rfl) fun _ => rfl
  | reallocate number old new =>
      rcases of_withPointer hrun with ⟨-, rfl, rfl⟩ | ⟨p, hp, hrun⟩
      · exact .idle (SameBlocks.refl _) rfl rfl
      · exact moves_of_reallocate trivial rfl hp hrun (fun _ => rfl) fun _ => rfl
  | resize pointer old new => exact moves_of_resize hrun
  | free number size =>
      rcases of_withPointer hrun with ⟨-, rfl, rfl⟩ | ⟨p, hp, hrun⟩
      · exact .idle (SameBlocks.refl _) rfl rfl
      · rw [Client.perform] at hrun
        split at hrun
        · next hfree =>
            cases hrun
            exact moves_of_free rfl hp hfree rfl rfl
        · next hfree =>
            cases hrun
            exact moves_of_free_refused rfl hp hfree rfl rfl
        · cases hrun
  | payloadSize number =>
      rcases of_withPointer hrun with ⟨-, rfl, rfl⟩ | ⟨p, hp, hrun⟩
      · exact .idle (SameBlocks.refl _) rfl rfl
      · cases hrun
        exact .idle (SameBlocks.refl _) rfl rfl
  | read number len =>
      rcases of_withPointer hrun with ⟨-, rfl, rfl⟩ | ⟨p, hp, hrun⟩
      · exact .idle (SameBlocks.refl _) rfl rfl
      · cases hrun
        exact .idle (SameBlocks.refl _) rfl rfl
  | write number bs =>
      rcases of_withPointer hrun with ⟨-, rfl, rfl⟩ | ⟨p, hp, hrun⟩
      · exact .idle (SameBlocks.refl _) rfl rfl
      · simp only [Action.get_bind] at hrun
        cases hwrite : c.client.heap.write p bs with
        | none =>
            rw [hwrite] at hrun
            cases hrun
            exact .idle (SameBlocks.refl _) rfl rfl
        | some h =>
            rw [hwrite] at hrun
            cases hrun
            exact .wrote trivial rfl hp hwrite rfl rfl
  | commit supply index size =>
      exact moves_of_addRegion (fun _ => memory_of_acquire) (SameBlocks.refl _) rfl hrun rfl
  | giveUpGrowth =>
      cases hrun
      exact .idle ⟨rfl, rfl, rfl, rfl, rfl, rfl⟩ rfl rfl
  | takeRequest =>
      simp only [Call.run, Action.get_bind] at hrun
      cases htake : c.client.heap.takeRequest with
      | none =>
          rw [htake] at hrun
          cases hrun
          exact .idle (SameBlocks.refl _) rfl rfl
      | some taken =>
          obtain ⟨index, h⟩ := taken
          rw [htake] at hrun
          cases hrun
          exact .idle (sameBlocks_takeRequest htake) rfl rfl
  | serveRequest supply =>
      simp only [Call.run, Action.get_bind] at hrun
      cases htake : c.client.heap.takeRequest with
      | none =>
          rw [htake] at hrun
          cases hrun
          exact .idle (SameBlocks.refl _) rfl rfl
      | some taken =>
          obtain ⟨index, h⟩ := taken
          rw [htake] at hrun
          have hsame : SameBlocks c.heap { c.client with heap := h }.heap :=
            sameBlocks_takeRequest htake
          exact moves_of_addRegion (fun _ => memory_of_acquire) hsame rfl hrun rfl
  | limits =>
      cases hrun
      exact .idle (SameBlocks.refl _) rfl rfl

theorem moves_of_step (hstep : c.step call = .ok (answer, c')) : c.Moves call c' := by
  rw [step] at hstep
  split at hstep
  · next hrun =>
      cases hstep
      exact moves_of_run hrun
  · cases hstep

end Inversion

/-! ## Any run -/

section Runs

variable {c c' : Custody} {call : Call} {calls : List Call}

/-- What is kept by every call is kept by every run. -/
theorem run_induct {P : Custody → Prop}
    (hstep : ∀ {c call answer c'}, P c → step c call = .ok (answer, c') → P c') :
    ∀ {calls : List Call} {c c' : Custody}, P c → run c calls = .ok c' → P c'
  | [], _, _, hc, hrun => by
      cases hrun
      exact hc
  | call :: rest, _, _, hc, hrun => by
      rw [run] at hrun
      split at hrun
      · next hcall => exact run_induct hstep (hstep hc hcall) hrun
      · cases hrun

theorem Moves.sane (hm : c.Moves call c') (hs : Sane c.heap) : Sane c'.heap := by
  cases hm with
  | idle hsame => exact hs.same hsame
  | took hrun hsame => exact (sane_of_ok (hs.takeBlock _).sane hrun).same hsame
  | lacked hrun hsame => exact (sane_of_error (hs.takeBlock _).sane hrun).same hsame
  | gave _ _ hrun hsame => exact (sane_of_ok (hs.giveBack _) hrun).same hsame
  | held _ _ hrun hsame => exact (sane_of_error (hs.giveBack _) hrun).same hsame
  | moved _ _ _ hrun hsame => exact (sane_of_ok (hs.moveBlock _ _ _) hrun).same hsame
  | stayed _ _ hrun hsame => exact (sane_of_error (hs.moveBlock _ _ _) hrun).same hsame
  | wrote _ _ _ hrun => exact hs.write hrun
  | grew _ hsame hrun => exact (hs.same hsame).commit hrun

theorem of_run_concat (hrun : c.run (calls ++ [call]) = .ok c') :
    ∃ mid answer, c.run calls = .ok mid ∧ mid.step call = .ok (answer, c') := by
  induction calls generalizing c with
  | nil =>
      rw [List.nil_append, run] at hrun
      split at hrun
      · next hstep =>
          cases hrun
          exact ⟨c, _, rfl, hstep⟩
      · cases hrun
  | cons first rest ih =>
      rw [List.cons_append, run] at hrun
      split at hrun
      · next hstep =>
          obtain ⟨mid, answer, hmid, hlast⟩ := ih hrun
          refine ⟨mid, answer, ?_, hlast⟩
          rw [run, hstep]
          exact hmid
      · cases hrun

theorem of_reached {s : Settings} (hreached : reached s calls = some c) :
    ∃ h, create .ample s.regionSize s.maxRegions = .ok h ∧ (new h).run calls = .ok c := by
  obtain ⟨h, hcreate, hrun⟩ := Option.bind_eq_some_iff.1 hreached
  exact ⟨h, toOption_eq_some.1 hcreate, toOption_eq_some.1 hrun⟩

theorem of_reached_concat {s : Settings} (hreached : reached s (calls ++ [call]) = some c') :
    ∃ mid answer, reached s calls = some mid ∧ mid.step call = .ok (answer, c') := by
  obtain ⟨h, hcreate, hrun⟩ := of_reached hreached
  obtain ⟨mid, answer, hmid, hstep⟩ := of_run_concat hrun
  refine ⟨mid, answer, ?_, hstep⟩
  rw [reached, hcreate, Except.toOption, Option.bind_some, hmid]
  rfl

/-- Whatever the pointers and the sizes are that a client passes. -/
theorem run_sane (hs : Sane c.heap) (hrun : c.run calls = .ok c') : Sane c'.heap :=
  run_induct (P := fun c => Sane c.heap) (fun hs hstep => (moves_of_step hstep).sane hs) hs hrun

/-- From accepted settings every run leads to a sane heap. -/
theorem sane_of_reached {s : Settings} (hs : s.validate = .ok ())
    (hreached : reached s calls = some c) : Sane c.heap := by
  obtain ⟨h, hcreate, hrun⟩ := of_reached hreached
  obtain ⟨⟨F, hbooked⟩, -⟩ := accounted_create hs hcreate
  exact run_sane (c := new h) hbooked.sane hrun

end Runs

/-! ## Runs that pass live pointers only -/

/-- The leases of the heap are the live pointers. -/
def Kept (c : Custody) : Prop :=
  ∃ L F, Booked c.heap ⟨L, F, []⟩ ∧ c.live.Perm (L.map fun l => l.block.pointer)

section Careful

variable {c c' : Custody} {call : Call} {p : Pointer} {calls : List Call}

/-- The books can list any live pointer first. -/
theorem Kept.first (hk : c.Kept) (hp : p ∈ c.live) :
    ∃ l L F, l.block.pointer = p ∧ Booked c.heap ⟨l :: L, F, []⟩ ∧
      (c.live.erase p).Perm (L.map fun l => l.block.pointer) := by
  obtain ⟨L, F, hbooked, hlive⟩ := hk
  obtain ⟨l, hl, rfl⟩ := List.mem_map.1 (hlive.mem_iff.1 hp)
  obtain ⟨before, after, rfl⟩ := List.append_of_mem hl
  have hperm : (before ++ l :: after).Perm (l :: (before ++ after)) := List.perm_middle
  refine ⟨l, before ++ after, F, rfl, hbooked.perm hperm, ?_⟩
  have herase := (hlive.trans (hperm.map _)).erase l.block.pointer
  rwa [List.map_cons, List.erase_cons_head] at herase

/-- The pointer of a careful call is live, and its lease can be listed first, or the heap does not take it
for live. -/
theorem Kept.through {number : Nat} (hk : c.Kept) (hcareful : c.Careful call)
    (hthrough : call.through? = some number) (hp : c.given[number]? = some p) :
    (p ∈ c.live ∧ ∃ l L F, l.block.pointer = p ∧ Booked c.heap ⟨l :: L, F, []⟩ ∧
      (c.live.erase p).Perm (L.map fun l => l.block.pointer)) ∨ c.heap.blockOf? p = none :=
  (hcareful number p hthrough hp).imp_left fun hlive => ⟨hlive, hk.first hlive⟩

/-- A careful call keeps the books, and the leases are the live pointers afterwards. -/
theorem Moves.kept (hm : c.Moves call c') (hk : c.Kept) (hcareful : c.Careful call) : c'.Kept := by
  cases hm with
  | idle hsame _ hlive =>
      obtain ⟨L, F, hbooked, hperm⟩ := hk
      exact ⟨L, F, hbooked.same hsame, hlive ▸ hperm⟩
  | @took size p h hrun hsame _ hlive =>
      obtain ⟨L, F, hbooked, hperm⟩ := hk
      have hserved := hbooked.takeBlock size
      rw [hrun] at hserved
      obtain ⟨b, F', rfl, hbooked', -⟩ := hserved
      exact ⟨_, F', hbooked'.same hsame, hlive ▸ hperm.cons b.pointer⟩
  | @lacked size cause h hrun hsame _ hlive =>
      obtain ⟨L, F, hbooked, hperm⟩ := hk
      have hserved := hbooked.takeBlock size
      rw [hrun] at hserved
      match cause with
      | .outOfMemory =>
          obtain ⟨F', hbooked', -⟩ := hserved
          exact ⟨L, F', hbooked'.same hsame, hlive ▸ hperm⟩
  | @gave number p h hthrough hp hrun hsame _ hlive =>
      rcases hk.through hcareful hthrough hp with ⟨hp', l, L, F, rfl, hbooked, hperm⟩ | hnone
      · obtain ⟨F', h', hgive, hbooked', -⟩ := hbooked.giveBack
        rw [hrun] at hgive
        cases hgive
        exact ⟨L, F', hbooked'.same hsame, hlive ▸ hperm⟩
      · rw [giveBack_none hnone] at hrun
        cases hrun
  | @held number p cause h hthrough hp hrun hsame _ hlive =>
      rcases hk.through hcareful hthrough hp with ⟨hp', l, L, F, rfl, hbooked, -⟩ | hnone
      · obtain ⟨F', h', hgive, -⟩ := hbooked.giveBack
        rw [hrun] at hgive
        cases hgive
      · rw [giveBack_none hnone] at hrun
        cases hrun
        obtain ⟨L, F, hbooked, hperm⟩ := hk
        exact ⟨L, F, hbooked.same hsame, hlive ▸ hperm⟩
  | @moved number old new p q h _ hthrough hp hrun hsame _ hlive =>
      rcases hk.through hcareful hthrough hp with ⟨hp', l, L, F, rfl, hbooked, hperm⟩ | hnone
      · obtain ⟨l', -, -, hserved⟩ := hbooked.moveBlock_any old new
        rw [hrun] at hserved
        obtain ⟨b, F', rfl, hbooked', -⟩ := hserved
        exact ⟨_, F', hbooked'.same hsame, hlive ▸ hperm.cons b.pointer⟩
      · rw [moveBlock_none hnone] at hrun
        cases hrun
  | @stayed number old new p cause h hthrough hp hrun hsame _ hlive =>
      rcases hk.through hcareful hthrough hp with ⟨hp', l, L, F, rfl, hbooked, hperm⟩ | hnone
      · obtain ⟨l', hblock, -, hserved⟩ := hbooked.moveBlock_any old new
        rw [hrun] at hserved
        match cause with
        | .outOfMemory =>
            obtain ⟨F', hbooked', -⟩ := hserved
            refine ⟨l' :: L, F', hbooked'.same hsame, ?_⟩
            rw [hlive, List.map_cons, hblock]
            exact (List.perm_cons_erase hp').trans (hperm.cons _)
      · rw [moveBlock_none hnone] at hrun
        cases hrun
        obtain ⟨L, F, hbooked, hperm⟩ := hk
        exact ⟨L, F, hbooked.same hsame, hlive ▸ hperm⟩
  | @wrote number p bs _ hthrough hp hrun _ hlive =>
      rcases hk.through hcareful hthrough hp with ⟨hp', l, L, F, rfl, hbooked, hperm⟩ | hnone
      · refine ⟨_, F, hbooked.write hrun, ?_⟩
        rw [hlive]
        exact (List.perm_cons_erase hp').trans (hperm.cons _)
      · rw [write_none hnone] at hrun
        cases hrun
  | grew _ hsame hrun _ hlive =>
      obtain ⟨L, F, hbooked, hperm⟩ := hk
      exact ⟨L, F, (hbooked.same hsame).commit hrun, hlive ▸ hperm⟩

theorem Kept.run (hk : c.Kept) (hcareful : c.CarefulRun calls) (hrun : c.run calls = .ok c') :
    c'.Kept := by
  induction calls generalizing c with
  | nil =>
      cases hrun
      exact hk
  | cons call rest ih =>
      obtain ⟨hcall, hrest⟩ := hcareful
      rw [Custody.run] at hrun
      split at hrun
      · next hstep =>
          exact ih ((moves_of_step hstep).kept hk hcall) (hrest _ _ hstep) hrun
      · cases hrun

theorem CarefulRun.concat (hcareful : c.CarefulRun (calls ++ [call])) :
    c.CarefulRun calls ∧ ∀ mid, c.run calls = .ok mid → mid.Careful call := by
  induction calls generalizing c with
  | nil =>
      refine ⟨trivial, fun mid hrun => ?_⟩
      cases hrun
      exact hcareful.1
  | cons first rest ih =>
      obtain ⟨hfirst, hrest⟩ := hcareful
      refine ⟨⟨hfirst, fun answer c' hstep => (ih (hrest answer c' hstep)).1⟩, fun mid hrun => ?_⟩
      rw [run] at hrun
      split at hrun
      · next hstep => exact (ih (hrest _ _ hstep)).2 mid hrun
      · cases hrun

theorem carefulFrom_concat {s : Settings} (hcareful : CarefulFrom s (calls ++ [call])) :
    CarefulFrom s calls ∧ ∀ mid, reached s calls = some mid → mid.Careful call := by
  refine ⟨fun h hcreate => (hcareful h hcreate).concat.1, fun mid hreached => ?_⟩
  obtain ⟨h, hcreate, hrun⟩ := of_reached hreached
  exact (hcareful h hcreate).concat.2 mid hrun

/-- From accepted settings a careful run keeps the books. -/
theorem kept_of_reached {s : Settings} (hs : s.validate = .ok ())
    (hcareful : CarefulFrom s calls) (hreached : reached s calls = some c) : c.Kept := by
  obtain ⟨h, hcreate, hrun⟩ := of_reached hreached
  obtain ⟨⟨F, hbooked⟩, -⟩ := accounted_create hs hcreate
  exact Kept.run (c := new h) ⟨[], F, hbooked, List.Perm.refl _⟩ (hcareful h hcreate) hrun

end Careful

end Custody

end BlockHost.Heap
