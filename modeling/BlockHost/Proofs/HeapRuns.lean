import BlockHost.Proofs.HeapAccounts
import BlockHost.Settings
import Mathlib.Data.List.InsertIdx
import Mathlib.Data.List.Perm.Basic

/-!
# Every run of a heap keeps its clients' allocations

The clients of a heap are described by what they hold: for every allocation the pointer they got
last, the size they asked for last, and the bytes they know to be in it. They pass only pointers
that they hold, together with the size that belongs to them; between their calls the worker may
add regions, take requests, or give growth up.

`runs_intact` is about every run of such calls from a new heap, whatever the settings allow. No
call comes to a halt; allocations do not overlap and lie in the used part of their regions; each
is at least as large as was asked for and holds what was written to it; what the heap counts is
what was asked for; and a refused call has changed nothing of all this. The proof carries the
books along: each call takes one state that has books to another one (`Kept.step`), and a run is
a row of calls.
-/

namespace BlockHost.Heap

/-! ## What clients hold -/

/-- An allocation as its client knows it. -/
structure Allocation where
  pointer : Pointer
  /-- The size that was asked for last. -/
  size : Nat
  /-- The bytes of the payload that the client has written and not lost by a smaller size. -/
  content : Nat → Option UInt8

/-- An allocation after another size was asked for: its first bytes are still there. -/
def Allocation.resized (a : Allocation) (new : Nat) (p : Pointer) : Allocation :=
  ⟨p, new, knownBelow (min a.size new) a.content⟩

/-- A heap and the allocations that its clients hold. -/
structure Tenancy where
  heap : Heap
  live : List Allocation

/-- A call of a client or of the worker. Clients name an allocation that they hold by its place.
-/
inductive Request where
  | allocate (size : Nat)
  | reallocate (place new : Nat)
  | free (place : Nat)
  | resize (place new : Nat)
  /-- A change of size without a pointer. -/
  | obtain (old new : Nat)
  /-- Writes bytes to a payload, from some place of it on. -/
  | write (place start : Nat) (bs : Bytes)
  | commit (region : Region)
  | takeRequest
  | giveUpGrowth

namespace Tenancy

/-- What a call leaves: other allocations when it is answered, and the same ones when it is
refused. -/
def conclude {α : Type} (t : Tenancy) (after : α → List Allocation) :
    EStateM.Result (Stop HeapFailure) Heap α → Except Fault (Option HeapFailure × Tenancy)
  | .ok a heap => .ok (none, ⟨heap, after a⟩)
  | .error (.refused cause) heap => .ok (some cause, ⟨heap, t.live⟩)
  | .error (.crashed fault) _ => .error fault

/-- A call, and why it was refused when it was. -/
def step (t : Tenancy) : Request → Except Fault (Option HeapFailure × Tenancy)
  | .allocate size =>
      t.conclude (fun p => ⟨p, size, nothingKnown⟩ :: t.live) (t.heap.allocate size)
  | .reallocate place new =>
      match t.live[place]? with
      | none => .ok (none, t)
      | some a =>
          t.conclude (fun p => t.live.set place (a.resized new p))
            (reallocate a.pointer a.size new t.heap)
  | .free place =>
      match t.live[place]? with
      | none => .ok (none, t)
      | some a => t.conclude (fun _ => t.live.eraseIdx place) (free a.pointer a.size t.heap)
  | .resize place new =>
      match t.live[place]? with
      | none => .ok (none, t)
      | some a =>
          t.conclude
            (fun
              | none => t.live.eraseIdx place
              | some p => t.live.set place (a.resized new p))
            (resize (some a.pointer) a.size new t.heap)
  | .obtain old new =>
      t.conclude
        (fun
          | none => t.live
          | some p => ⟨p, new, nothingKnown⟩ :: t.live)
        (resize none old new t.heap)
  | .write place start bs =>
      match t.live[place]? with
      | none => .ok (none, t)
      | some a =>
          match t.heap.writeAt a.pointer start bs with
          | none => .ok (none, t)
          | some heap =>
              .ok (none,
                ⟨heap, t.live.set place { a with content := overwritten start bs a.content }⟩)
  | .commit region =>
      match t.heap.commit region with
      | .ok heap => .ok (none, ⟨heap, t.live⟩)
      | .error cause => .ok (some cause, t)
  | .takeRequest =>
      match t.heap.takeRequest with
      | none => .ok (none, t)
      | some (_, heap) => .ok (none, ⟨heap, t.live⟩)
  | .giveUpGrowth => .ok (none, ⟨t.heap.giveUpGrowth, t.live⟩)

/-- A run of calls. -/
def run (t : Tenancy) : List Request → Except Fault Tenancy
  | [] => .ok t
  | request :: rest =>
      match t.step request with
      | .ok (_, t') => t'.run rest
      | .error fault => .error fault

/-- What the clients of a heap rely on. -/
structure Intact (t : Tenancy) : Prop where
  apart : t.live.Pairwise fun a b => ∃ x y,
    t.heap.blockOf? a.pointer = some x ∧ t.heap.blockOf? b.pointer = some y ∧ x.Apart y
  placed : ∀ a ∈ t.live, ∃ b s, t.heap.blockOf? a.pointer = some b ∧
    t.heap.segments[b.segment]? = some s ∧ b.start + b.size ≤ s.top ∧ s.top ≤ s.region.size
  room : ∀ a ∈ t.live, ∃ n, t.heap.payloadSize a.pointer = some n ∧ a.size ≤ n
  content : ∀ a ∈ t.live, ∀ i byte, a.content i = some byte →
    ∃ bs, t.heap.read a.pointer (i + 1) = some bs ∧ bs[i]? = some byte
  used : t.heap.used = (t.live.map Allocation.size).sum

/-- Nothing has changed for the clients. -/
structure Unaltered (t t' : Tenancy) : Prop where
  live : t'.live = t.live
  payloads : SamePayloads (t.live.map Allocation.pointer) t.heap t'.heap
  used : t'.heap.used = t.heap.used

/-! ## One call -/

/-- A lease as its client knows it. -/
def ofLease (l : Lease) : Allocation :=
  ⟨l.block.pointer, l.size, l.content⟩

/-- A heap whose leases are what its clients hold. -/
def Kept (t : Tenancy) : Prop :=
  ∃ L, Accounted t.heap L ∧ t.live = L.map ofLease

/-- How a call should end. -/
def Taken (t : Tenancy) (r : Except Fault (Option HeapFailure × Tenancy)) : Prop :=
  ∃ outcome t', r = .ok (outcome, t') ∧ t'.Kept ∧ (outcome ≠ none → t.Unaltered t')

section Call

variable {t : Tenancy} {L L₀ : List Lease} {α : Type} {fits : α → List Lease → Prop}
  {after : α → List Allocation}

/-- A call that keeps the books ends as it should. The books list the lease that the call is about
first, wherever it is among the allocations. -/
theorem conclude_taken (hk : Accounted t.heap L) (hlive : t.live = L.map ofLease)
    (hperm : L₀.Perm L) {r : EStateM.Result (Stop HeapFailure) Heap α}
    (hr : Concluded L₀ fits t.heap r)
    (hafter : ∀ a L', fits a L' → ∃ L'', L'.Perm L'' ∧ after a = L''.map ofLease) :
    t.Taken (t.conclude after r) := by
  match r with
  | .ok a h' =>
      obtain ⟨L', ha, hk'⟩ := hr
      obtain ⟨L'', hp, hl⟩ := hafter a L' ha
      exact ⟨none, ⟨h', after a⟩, rfl, ⟨L'', hk'.perm hp, hl⟩, fun hne => absurd rfl hne⟩
  | .error (.refused cause) h' =>
      obtain ⟨hk', hsame⟩ := hr
      have hkept := hk'.perm hperm
      refine ⟨some cause, ⟨h', t.live⟩, rfl, ⟨L, hkept, hlive⟩, fun _ => ⟨rfl, ?_, ?_⟩⟩
      · intro p hp
        rw [hlive, List.map_map] at hp
        exact hsame p ((hperm.map _).mem_iff.2 hp)
      · rw [hkept.used, hk.used]

/-- A place among the allocations is a place among the leases. -/
theorem exists_lease {place : Nat} {a : Allocation} (hlive : t.live = L.map ofLease)
    (ha : t.live[place]? = some a) :
    ∃ l, a = ofLease l ∧ place < L.length ∧ (l :: L.eraseIdx place).Perm L := by
  rw [hlive, List.getElem?_map, Option.map_eq_some_iff] at ha
  obtain ⟨l, hl, rfl⟩ := ha
  obtain ⟨hlt, rfl⟩ := List.getElem?_eq_some_iff.1 hl
  exact ⟨_, rfl, hlt, List.getElem_cons_eraseIdx_perm hlt⟩

theorem set_eq_map {place : Nat} (hlive : t.live = L.map ofLease) (hlt : place < L.length)
    (l : Lease) : ∃ L'', (l :: L.eraseIdx place).Perm L'' ∧
      t.live.set place (ofLease l) = L''.map ofLease := by
  refine ⟨L.set place l, (List.set_perm_cons_eraseIdx hlt l).symm, ?_⟩
  rw [hlive, List.map_set]

theorem eraseIdx_eq_map {place : Nat} (hlive : t.live = L.map ofLease) :
    t.live.eraseIdx place = (L.eraseIdx place).map ofLease := by
  rw [hlive, List.eraseIdx_map]

/-- A call on a place that nobody holds is no call. -/
theorem Kept.unheld (ht : t.Kept) : t.Taken (.ok (none, t)) :=
  ⟨none, t, rfl, ht, fun hne => absurd rfl hne⟩

theorem Kept.allocate (ht : t.Kept) (size : Nat) : t.Taken (t.step (.allocate size)) := by
  obtain ⟨L, hk, hlive⟩ := ht
  refine conclude_taken hk hlive (List.Perm.refl L) (hk.allocate size) ?_
  rintro p L' ⟨b, rfl, rfl⟩
  refine ⟨_, List.Perm.refl _, ?_⟩
  rw [hlive]
  rfl

theorem Kept.reallocate (ht : t.Kept) (place new : Nat) :
    t.Taken (t.step (.reallocate place new)) := by
  rw [step]
  cases ha : t.live[place]? with
  | none => exact ht.unheld
  | some a =>
      obtain ⟨L, hk, hlive⟩ := ht
      obtain ⟨l, rfl, hlt, hperm⟩ := exists_lease hlive ha
      refine conclude_taken hk hlive hperm ((hk.perm hperm.symm).reallocate new) ?_
      rintro p L' ⟨b, rfl, rfl⟩
      exact set_eq_map hlive hlt (l.resized new b)

theorem Kept.free (ht : t.Kept) (place : Nat) : t.Taken (t.step (.free place)) := by
  rw [step]
  cases ha : t.live[place]? with
  | none => exact ht.unheld
  | some a =>
      obtain ⟨L, hk, hlive⟩ := ht
      obtain ⟨l, rfl, hlt, hperm⟩ := exists_lease hlive ha
      obtain ⟨h', hrun, hk'⟩ := (hk.perm hperm.symm).free
      have hrun' : Heap.free (ofLease l).pointer (ofLease l).size t.heap = .ok () h' := hrun
      simp only [hrun']
      exact ⟨none, _, rfl, ⟨_, hk', eraseIdx_eq_map hlive⟩, fun hne => absurd rfl hne⟩

/-- A change of size is one of the three other calls. -/
theorem Kept.resize (ht : t.Kept) (place new : Nat) :
    t.Taken (t.step (.resize place new)) := by
  rw [step]
  cases ha : t.live[place]? with
  | none => exact ht.unheld
  | some a =>
      obtain ⟨L, hk, hlive⟩ := ht
      obtain ⟨l, rfl, hlt, hperm⟩ := exists_lease hlive ha
      have hk₀ := hk.perm hperm.symm
      cases new with
      | zero =>
          obtain ⟨h', hrun, hk'⟩ := hk₀.free
          have hrun' : Heap.resize (some (ofLease l).pointer) (ofLease l).size 0 t.heap
              = .ok none h' := Action.bind_ok hrun
          simp only [hrun']
          exact ⟨none, _, rfl, ⟨_, hk', eraseIdx_eq_map hlive⟩, fun hne => absurd rfl hne⟩
      | succ n =>
          refine conclude_taken hk hlive hperm
            ((hk₀.reallocate (n + 1)).map
              (fun p L' => ∃ b, p = some b.pointer ∧ L' = l.resized (n + 1) b :: L.eraseIdx place)
              ?_) ?_
          · rintro p L' ⟨b, rfl, rfl⟩
            exact ⟨b, rfl, rfl⟩
          · rintro p L' ⟨b, rfl, rfl⟩
            exact set_eq_map hlive hlt (l.resized (n + 1) b)

theorem Kept.obtain (ht : t.Kept) (old new : Nat) : t.Taken (t.step (.obtain old new)) := by
  obtain ⟨L, hk, hlive⟩ := ht
  cases new with
  | zero => exact ⟨none, t, rfl, ⟨L, hk, hlive⟩, fun hne => absurd rfl hne⟩
  | succ n =>
      refine conclude_taken hk hlive (List.Perm.refl L)
        ((hk.allocate (n + 1)).map
          (fun p L' => ∃ b, p = some b.pointer ∧ L' = ⟨b, n + 1, nothingKnown⟩ :: L) ?_) ?_
      · rintro p L' ⟨b, rfl, rfl⟩
        exact ⟨b, rfl, rfl⟩
      · rintro p L' ⟨b, rfl, rfl⟩
        refine ⟨_, List.Perm.refl _, ?_⟩
        rw [hlive]
        rfl

theorem Kept.write (ht : t.Kept) (place start : Nat) (bs : Bytes) :
    t.Taken (t.step (.write place start bs)) := by
  rw [step]
  cases ha : t.live[place]? with
  | none => exact ht.unheld
  | some a =>
      cases hrun : t.heap.writeAt a.pointer start bs with
      | none =>
          simp only [hrun]
          exact ht.unheld
      | some h' =>
          obtain ⟨L, hk, hlive⟩ := ht
          obtain ⟨l, rfl, hlt, hperm⟩ := exists_lease hlive ha
          have hk' := (hk.perm hperm.symm).writeAt hrun
          obtain ⟨L'', hp, hl⟩ := set_eq_map hlive hlt
            { l with content := overwritten start bs l.content }
          simp only [hrun]
          exact ⟨none, _, rfl, ⟨L'', hk'.perm hp, hl⟩, fun hne => absurd rfl hne⟩

theorem Kept.commit (ht : t.Kept) (region : Region) : t.Taken (t.step (.commit region)) := by
  obtain ⟨L, hk, hlive⟩ := ht
  rw [step]
  cases hrun : t.heap.commit region with
  | error cause =>
      exact ⟨some cause, t, rfl, ⟨L, hk, hlive⟩,
        fun _ => ⟨rfl, fun p _ => ⟨rfl, fun _ => rfl⟩, rfl⟩⟩
  | ok h' => exact ⟨none, _, rfl, ⟨L, hk.commit hrun, hlive⟩, fun hne => absurd rfl hne⟩

theorem Kept.takeRequest (ht : t.Kept) : t.Taken (t.step .takeRequest) := by
  rw [step]
  cases hrun : t.heap.takeRequest with
  | none => exact ht.unheld
  | some taken =>
      obtain ⟨index, h'⟩ := taken
      obtain ⟨L, ⟨⟨F, hbooked⟩, hused⟩, hlive⟩ := ht
      rw [Heap.takeRequest] at hrun
      split at hrun
      · cases hrun
      cases hrun
      refine ⟨none, _, rfl, ⟨L, ⟨⟨F, ?_⟩, hused⟩, hlive⟩, fun hne => absurd rfl hne⟩
      exact hbooked.of_same rfl rfl rfl rfl rfl rfl

theorem Kept.giveUpGrowth (ht : t.Kept) : t.Taken (t.step .giveUpGrowth) := by
  obtain ⟨L, ⟨⟨F, hbooked⟩, hused⟩, hlive⟩ := ht
  refine ⟨none, _, rfl, ⟨L, ⟨⟨F, ?_⟩, hused⟩, hlive⟩, fun hne => absurd rfl hne⟩
  exact hbooked.of_same rfl rfl rfl rfl rfl rfl

theorem Kept.step (ht : t.Kept) (request : Request) : t.Taken (t.step request) := by
  cases request with
  | allocate size => exact ht.allocate size
  | reallocate place new => exact ht.reallocate place new
  | free place => exact ht.free place
  | resize place new => exact ht.resize place new
  | obtain old new => exact ht.obtain old new
  | write place start bs => exact ht.write place start bs
  | commit region => exact ht.commit region
  | takeRequest => exact ht.takeRequest
  | giveUpGrowth => exact ht.giveUpGrowth

end Call

/-! ## Every run -/

theorem Kept.run {t : Tenancy} (ht : t.Kept) (requests : List Request) :
    ∃ t', t.run requests = .ok t' ∧ t'.Kept := by
  induction requests generalizing t with
  | nil => exact ⟨t, rfl, ht⟩
  | cons request rest ih =>
      obtain ⟨outcome, t₁, hstep, ht₁, -⟩ := ht.step request
      obtain ⟨t', hrun, ht'⟩ := ih ht₁
      refine ⟨t', ?_, ht'⟩
      rw [Tenancy.run, hstep]
      exact hrun

/-- Right books are what clients rely on. -/
theorem Kept.intact {t : Tenancy} (ht : t.Kept) : t.Intact := by
  obtain ⟨L, ⟨⟨F, hbooked⟩, hused⟩, hlive⟩ := ht
  obtain ⟨heap, live⟩ := t
  simp only at hbooked hused hlive
  subst hlive
  constructor
  case apart =>
    have hall := (List.pairwise_append.1 (List.pairwise_append.1 hbooked.tiled.apart).2.1).2.1
    rw [List.pairwise_map] at hall
    rw [List.pairwise_map]
    refine hall.imp_of_mem fun ha hb hab => ?_
    exact ⟨_, _, hbooked.blockOf? ha, hbooked.blockOf? hb, hab⟩
  case placed =>
    intro a ha
    obtain ⟨l, hl, rfl⟩ := List.mem_map.1 ha
    have hmem := hbooked.mem_of_lease hl
    have hseg := hbooked.segment_lt hmem
    obtain ⟨-, hlength, htop⟩ := answers_of_lt hseg
    refine ⟨l.block, heap.segments[l.block.segment], hbooked.blockOf? hl,
      List.getElem?_eq_getElem hseg, ?_, ?_⟩
    · rw [htop]
      exact (hbooked.fits hmem).stop_le
    · rw [htop, hlength]
      exact hbooked.tiled.sound.top_le _
  case room =>
    intro a ha
    obtain ⟨l, hl, rfl⟩ := List.mem_map.1 ha
    have hroom := (hbooked.held l hl).room
    refine ⟨_, hbooked.payloadSize hl, ?_⟩
    simp only [ofLease]
    omega
  case content =>
    intro a ha i byte hi
    obtain ⟨l, hl, rfl⟩ := List.mem_map.1 ha
    obtain ⟨hlt, hbyte⟩ := (hbooked.held l hl).content i byte hi
    refine ⟨_, (hbooked.read hl (i + 1)).trans (if_neg (by omega)), ?_⟩
    rw [Memory.load, List.getElem?_map, List.getElem?_range' (by omega), ← hbyte, Nat.one_mul]
    rfl
  case used =>
    rw [hused, List.map_map]
    rfl

end Tenancy

/-! ## From a new heap on -/

/-- A heap made from settings that have been checked has books, in which nothing is owned. -/
theorem accounted_create {supply : Supply} {s : Settings} (hs : s.validate = .ok ()) {h : Heap}
    (hcreate : create supply s.regionSize s.maxRegions = .ok h) : Accounted h [] := by
  rw [create] at hcreate
  obtain ⟨region, hregion, hrest⟩ := of_bind_ok hcreate
  obtain ⟨-, -, rfl⟩ := Region.acquire_ok_iff.1 hregion
  cases hrest
  simp only [Settings.validate] at hs
  split at hs
  · cases hs
  next hbase =>
  split at hs
  · cases hs
  next hcount =>
  split at hs
  · cases hs
  next hlast =>
  unfold leastBlock at hbase
  unfold regionLimit at hcount
  have hcap : s.regionSize * 2 ^ (s.maxRegions - 1) < 2 ^ 32 := by
    simp only [Settings.addressable, Region.sizeAt, Bool.not_eq_true, Bool.not_eq_false] at hlast
    split at hlast
    · next size hsize =>
        split at hsize
        · cases hsize
          simpa using hlast
        · cases hsize
    · cases hlast
  have hpos : 0 < 2 ^ (s.maxRegions - 1) := Nat.pow_pos (by omega)
  have hsmall : s.regionSize < 2 ^ 32 := Nat.lt_of_le_of_lt (Nat.le_mul_of_pos_right _ hpos) hcap
  have hclamp : max 1 (min s.maxRegions regionLimit) = s.maxRegions := by
    unfold regionLimit
    omega
  refine ⟨⟨[], ?_⟩, rfl⟩
  constructor
  case tiled =>
    refine Tiled.empty (by simp only [ground]; omega) (by simp only [ground, leastBlock]; omega)
      ?_ ?_ ?_ rfl rfl rfl fun i => ?_
    · simp only [ground, hclamp]
      exact hcap
    · simp only [ground, regionLimit]
      omega
    · simp only [ground, hclamp]
      omega
    · show topAt _ i = 0
      simp only [topAt]
      cases i <;> rfl
  case held => exact fun l hl => by cases hl
  case marked => exact fun b hb => by cases hb
  case linked =>
    intro c
    show (Vector.replicate classCount noLink)[c] = noLink
    simp
  case occupied =>
    intro c
    simp [Books.filed]

/-- Settings that have been checked give a heap, when the system grants the first region. -/
theorem exists_create {supply : Supply} {s : Settings} (hs : s.validate = .ok ())
    (hgranted : supply s.regionSize = .granted) :
    ∃ h, create supply s.regionSize s.maxRegions = .ok h ∧ Accounted h [] := by
  have hpos : s.regionSize ≠ 0 := by
    simp only [Settings.validate] at hs
    split at hs
    · cases hs
    next hbase =>
    unfold leastBlock at hbase
    omega
  have hregion : Region.acquire supply 0 s.regionSize = .ok ⟨0, s.regionSize, .blank⟩ :=
    Region.acquire_ok_iff.2 ⟨hpos, hgranted, rfl⟩
  obtain ⟨h, hcreate⟩ : ∃ h, create supply s.regionSize s.maxRegions = .ok h :=
    ⟨_, by rw [create, hregion]; rfl⟩
  exact ⟨h, hcreate, accounted_create hs hcreate⟩

/-- Whatever the settings allow and whatever clients and the worker call: no call comes to a
halt, what clients rely on holds in every state that is reached, and a refused call has changed
nothing for them. -/
theorem runs_intact {supply : Supply} {s : Settings} (hs : s.validate = .ok ())
    (hgranted : supply s.regionSize = .granted) (requests : List Request) :
    ∃ h t, create supply s.regionSize s.maxRegions = .ok h ∧
      Tenancy.run ⟨h, []⟩ requests = .ok t ∧
      t.Intact ∧ ∀ request cause t', t.step request = .ok (some cause, t') → t.Unaltered t' := by
  obtain ⟨h, hcreate, hk⟩ := exists_create hs hgranted
  have hkept : Tenancy.Kept ⟨h, []⟩ := ⟨[], hk, rfl⟩
  obtain ⟨t, hrun, ht⟩ := hkept.run requests
  refine ⟨h, t, hcreate, hrun, ht.intact, fun request cause t' hstep => ?_⟩
  obtain ⟨outcome, t'', hstep', -, hsame⟩ := ht.step request
  rw [hstep'] at hstep
  cases hstep
  exact hsame (by simp)

/-- A block with three bytes in it grows twice, another one is given back, and one more is asked for. -/
theorem runs_intact_standard :
    let requests : List Request := [.allocate 100, .write 0 2 [1, 2, 3], .reallocate 0 4000,
      .allocate 24, .free 0, .resize 0 90000, .obtain 0 64]
    Settings.standard.validate = .ok () ∧
      Supply.ample Settings.standard.regionSize = .granted ∧
      ∃ h t, create .ample Settings.standard.regionSize Settings.standard.maxRegions = .ok h ∧
        Tenancy.run ⟨h, []⟩ requests = .ok t ∧
        t.live.map (fun a => (a.size, a.content 3)) = [(64, none), (90000, some 2)] ∧
        t.Intact ∧ ∀ request cause t', t.step request = .ok (some cause, t') → t.Unaltered t' := by
  intro requests
  have hcheck : ((create .ample Settings.standard.regionSize
      Settings.standard.maxRegions).toOption.bind fun h =>
        (Tenancy.run ⟨h, []⟩ requests).toOption.map fun t =>
          t.live.map fun a => (a.size, a.content 3)) = some [(64, none), (90000, some 2)] := by
    decide +kernel
  have hgranted : Supply.ample Settings.standard.regionSize = .granted := rfl
  obtain ⟨h, t, hcreate, hrun, hintact⟩ := runs_intact (s := Settings.standard) rfl hgranted requests
  simp only [hcreate, hrun, Except.toOption, Option.bind_some, Option.map_some,
    Option.some.injEq] at hcheck
  exact ⟨rfl, hgranted, h, t, hcreate, hrun, hcheck, hintact⟩

end BlockHost.Heap
