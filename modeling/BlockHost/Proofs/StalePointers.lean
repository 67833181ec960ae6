import BlockHost.Proofs.Custody
import BlockHost.Proofs.HeaderWords
import Mathlib.Data.List.Induction

/-!
# Pointers that are not live

The heap has no list of the pointers that are live. It goes by the eight bytes in front of where a pointer
leads: they have to read as the header of a used block. A block that is given back gets another tag, so its
pointer is refused from then on, and stays refused as long as no such bytes come to stand there again. The heap
itself puts them there only when it hands out that very pointer, which is then live (`Moves.onlyAt`).

But a payload handed out later can cover the place, and into a payload a client may put whatever it likes. Bytes
that read as a header make the stale pointer lead to a block again (`forged_header_accepted`). This is the one way
in which it can happen, whatever the calls (`stale_refused`): by a write, or by the copy of a reallocation, into
the payload of a live block.
-/

namespace BlockHost.Heap

instance (h : Heap) (i x : Nat) : Decidable (h.ReadsUsed i x) :=
  inferInstanceAs (Decidable ((h.memoryAt i).ReadsUsed x))

/-- The bytes in front of where a pointer leads read as the header of a used block. -/
def VouchesFor (h : Heap) (p : Pointer) : Prop :=
  ∃ i x, p.Heads i x ∧ x % 8 = 0 ∧ h.ReadsUsed i x

instance (h : Heap) (p : Pointer) : Decidable (h.VouchesFor p) :=
  decidable_of_iff (headerSize ≤ p.offset.toNat ∧ p.offset.toNat % headerSize = 0 ∧
      h.ReadsUsed p.region.toNat (p.offset.toNat - headerSize)) <| by
    unfold headerSize
    constructor
    · rintro ⟨hle, hmod, hreads⟩
      exact ⟨_, _, ⟨rfl, by unfold headerSize; omega⟩, by omega, hreads⟩
    · rintro ⟨i, x, ⟨rfl, hoffset⟩, hmod, hreads⟩
      unfold headerSize at hoffset
      refine ⟨by omega, by omega, ?_⟩
      rwa [show p.offset.toNat - 8 = x by omega]

section Vouching

variable {h h' : Heap} {p q : Pointer} {b : Block} {i x : Nat}

theorem vouchesFor_of_blockOf? (hb : h.blockOf? p = some b) : h.VouchesFor p := by
  obtain ⟨hregion, -, hoffset, hmod, hsize, -, hmarked⟩ := of_blockOf? hb
  refine ⟨b.segment, b.start, ⟨hregion.symm, hoffset.symm⟩, hmod, ?_, hmarked.tag_eq⟩
  rw [hmarked.size_eq]
  exact hsize

/-- At most one pointer is checked by a header. -/
theorem heads_inj (hp : p.Heads i x) (hq : q.Heads i x) : p = q := by
  obtain ⟨hpr, hpo⟩ := hp
  obtain ⟨hqr, hqo⟩ := hq
  obtain ⟨region, offset⟩ := p
  obtain ⟨region', offset'⟩ := q
  have hregion : region = region' := UInt32.toNat_inj.1 (hpr.trans hqr.symm)
  have hoffset : offset = offset' := UInt32.toNat_inj.1 (hpo.trans hqo.symm)
  rw [hregion, hoffset]

theorem SameBlocks.readsUsed (hsame : SameBlocks h h') (i x : Nat) :
    h'.ReadsUsed i x ↔ h.ReadsUsed i x := by
  rw [ReadsUsed, hsame.memoryAt]
  rfl

theorem OnlyAt.same {S : Nat → Nat → Prop} {h'' : Heap} (ho : OnlyAt S h h')
    (hsame : SameBlocks h' h'') : OnlyAt S h h'' :=
  ho.trans (onlyAt_of_memoryAt hsame.memoryAt)

theorem onlyAt_commit {S : Nat → Nat → Prop} {region : Region} (hs : Sane h)
    (hblank : region.memory = .blank) (hrun : h.commit region = .ok h') : OnlyAt S h h' := by
  obtain ⟨rfl, -⟩ := commit_eq hs.sound hrun
  refine onlyAt_of_memoryAt fun i => ?_
  simp only [memoryAt, getElem?_segments_append]
  split
  · next heq =>
      rw [heq, List.getElem?_eq_none (Nat.le_refl _)]
      exact hblank
  · rfl

theorem memoryAt_create {supply : Supply} {baseSize maxRegions : Nat}
    (hcreate : create supply baseSize maxRegions = .ok h) (i : Nat) : h.memoryAt i = .blank := by
  rw [create] at hcreate
  obtain ⟨region, hregion, hrest⟩ := of_bind_ok hcreate
  cases hrest
  cases i with
  | zero => exact Custody.memory_of_acquire hregion
  | succ i => rfl

theorem not_readsUsed_blank (x : Nat) : ¬ Memory.blank.ReadsUsed x := by
  rintro ⟨hsize, -⟩
  have hzero : Memory.blank.number x 4 = 0 := rfl
  rw [hzero] at hsize
  exact absurd hsize (by decide)

end Vouching

namespace Custody

/-! ## Where headers come to stand -/

/-- A word where a call may leave the header of a used block: in front of where a live pointer leads or, when
it is a call that can put bytes into payloads, in the payload of a live block. -/
def Marks (call : Call) (c' : Custody) (i x : Nat) : Prop :=
  ∃ q ∈ c'.live, q.Heads i x ∨
    call.Fills ∧ ∃ b, c'.heap.blockOf? q = some b ∧ b.Contains i x

section Moves

variable {c c' : Custody} {call : Call} {p : Pointer}

/-- Nowhere else does a careful call leave one. -/
theorem Moves.onlyAt (hm : c.Moves call c') (hk : c.Kept) (hcareful : c.Careful call) :
    OnlyAt (Marks call c') c.heap c'.heap := by
  have ⟨L, F, hbooked, _⟩ := hk
  cases hm with
  | idle hsame => exact onlyAt_of_memoryAt hsame.memoryAt
  | @took size q h hrun hsame _ hlive =>
      have hgives := hbooked.gives_takeBlock size
      rw [hrun] at hgives
      have hq : q ∈ c'.live := hlive ▸ List.mem_cons_self
      exact (hgives.mono fun i x hplace => ⟨q, hq, Or.inl hplace⟩).same hsame
  | @lacked size cause h hrun hsame =>
      have hgives := hbooked.gives_takeBlock size
      rw [hrun] at hgives
      exact hgives.of_nowhere.same hsame
  | @gave number q h hthrough hq hrun hsame =>
      rcases hk.through hcareful hthrough hq with ⟨-, l, L, F, rfl, hbooked, -⟩ | hnone
      · exact (hbooked.erases_giveBack hrun).onlyAt.same hsame
      · rw [giveBack_none hnone] at hrun
        cases hrun
  | @held number q cause h hthrough hq hrun hsame =>
      rcases hk.through hcareful hthrough hq with ⟨-, l, L, F, rfl, hbooked, -⟩ | hnone
      · obtain ⟨F', h', hgive, -⟩ := hbooked.giveBack
        rw [hrun] at hgive
        cases hgive
      · rw [giveBack_none hnone] at hrun
        cases hrun
        exact onlyAt_of_memoryAt hsame.memoryAt
  | @moved number old new q r h hfills hthrough hq hrun hsame _ hlive =>
      rcases hk.through hcareful hthrough hq with ⟨-, l, L, F, rfl, hbooked, -⟩ | hnone
      · have hcarries := hbooked.carries_moveBlock old new
        rw [hrun] at hcarries
        obtain ⟨b, hb, hwords, -⟩ := hcarries
        have hr : r ∈ c'.live := hlive ▸ List.mem_cons_self
        have hb' : c'.heap.blockOf? r = some b := by
          rw [hsame.blockOf?]
          exact hb
        refine OnlyAt.same (hwords.mono fun i x hplace => ⟨r, hr, ?_⟩) hsame
        exact hplace.imp_right fun hin => ⟨hfills, b, hb', hin⟩
      · rw [moveBlock_none hnone] at hrun
        cases hrun
  | @stayed number old new q cause h hthrough hq hrun hsame =>
      rcases hk.through hcareful hthrough hq with ⟨-, l, L, F, rfl, hbooked, -⟩ | hnone
      · have hcarries := hbooked.carries_moveBlock old new
        rw [hrun] at hcarries
        exact hcarries.of_nowhere.same hsame
      · rw [moveBlock_none hnone] at hrun
        cases hrun
        exact onlyAt_of_memoryAt hsame.memoryAt
  | @wrote number q bs hfills hthrough hq hrun _ hlive =>
      rcases hk.through hcareful hthrough hq with ⟨hlive', l, L, F, rfl, hbooked, -⟩ | hnone
      · have hb' : c'.heap.blockOf? l.block.pointer = some l.block :=
          (hbooked.write hrun).blockOf? (l := { l with content := nothingKnown })
            List.mem_cons_self
        obtain ⟨b, hb, -, hlen, heap⟩ := of_write hrun
        rw [hbooked.blockOf? List.mem_cons_self] at hb
        cases hb
        rw [heap]
        refine (hbooked.onlyAt_refilled (hbooked.mem_of_lease List.mem_cons_self)
          fun x hx => Memory.byteAt_store_of_outside (by omega)).mono fun i x hin => ?_
        exact ⟨_, hlive ▸ hlive', Or.inr ⟨hfills, l.block, hb', hin⟩⟩
      · rw [write_none hnone] at hrun
        cases hrun
  | grew hblank hsame hrun =>
      exact (onlyAt_of_memoryAt hsame.memoryAt).trans
        (onlyAt_commit (hbooked.sane.same hsame) hblank hrun)

/-- In front of where a pointer leads that a call has made stale, no header is left. -/
theorem Moves.unvouched (hm : c.Moves call c') (hk : c.Kept) (hp : p ∈ c.live)
    (hp' : p ∉ c'.live) : ¬ c'.heap.VouchesFor p := by
  rintro ⟨i, x, hplace, hx, hreads⟩
  cases hm with
  | idle _ _ hlive => exact hp' (hlive ▸ hp)
  | took _ _ _ hlive => exact hp' (hlive ▸ List.mem_cons_of_mem _ hp)
  | lacked _ _ _ hlive => exact hp' (hlive ▸ hp)
  | held _ _ _ _ _ hlive => exact hp' (hlive ▸ hp)
  | stayed _ _ _ _ _ hlive => exact hp' (hlive ▸ hp)
  | wrote _ _ _ _ _ hlive => exact hp' (hlive ▸ hp)
  | grew _ _ _ _ hlive => exact hp' (hlive ▸ hp)
  | @gave number q h hthrough hq hrun hsame _ hlive =>
      rw [hlive] at hp'
      have heq : p = q := by
        by_contra hne
        exact hp' ((List.mem_erase_of_ne hne).2 hp)
      subst heq
      obtain ⟨l, L, F, rfl, hbooked, -⟩ := hk.first hp
      have herased := hbooked.erases_giveBack hrun
      exact hbooked.unmarked (hbooked.mem_of_lease List.mem_cons_self) herased i x hplace hx
        ((hsame.readsUsed i x).1 hreads)
  | @moved number old new q r h _ hthrough hq hrun hsame _ hlive =>
      rw [hlive, List.mem_cons, not_or] at hp'
      have heq : p = q := by
        by_contra hne
        exact hp'.2 ((List.mem_erase_of_ne hne).2 hp)
      subst heq
      obtain ⟨l, L, F, rfl, hbooked, -⟩ := hk.first hp
      have hcarries := hbooked.carries_moveBlock old new
      rw [hrun] at hcarries
      obtain ⟨b, -, -, hsame' | hgone⟩ := hcarries
      · exact hp'.1 hsame'.symm
      · exact hgone i x hplace hx ((hsame.readsUsed i x).1 hreads)

end Moves

/-! ## Forged headers -/

/-- A call puts bytes that read as a header in front of where a stale pointer leads, in the payload of a live
block. -/
structure Forges (c : Custody) (call : Call) (c' : Custody) (p : Pointer) : Prop where
  fills : call.Fills
  stale : p ∉ c'.live
  before : ¬ c.heap.VouchesFor p
  after : c'.heap.VouchesFor p
  inside : ∃ q ∈ c'.live, ∃ b, c'.heap.blockOf? q = some b ∧
    ∃ i x, p.Heads i x ∧ b.Contains i x

/-- A run has forged a header for a pointer, and has left it standing while the pointer was not live. -/
inductive Forged (s : Settings) (p : Pointer) : List Call → Prop
  | placed {calls : List Call} {call : Call} {c c' : Custody} (hbefore : reached s calls = some c)
      (hafter : reached s (calls ++ [call]) = some c') (hforges : c.Forges call c' p) :
      Forged s p (calls ++ [call])
  | standing {calls : List Call} {call : Call} {c' : Custody} (hforged : Forged s p calls)
      (hafter : reached s (calls ++ [call]) = some c') (hstale : p ∉ c'.live)
      (hvouched : c'.heap.VouchesFor p) : Forged s p (calls ++ [call])

section Runs

variable {c c' : Custody} {call : Call} {p : Pointer} {s : Settings} {calls : List Call}

theorem Forged.vouchesFor (hf : Forged s p calls) (hreached : reached s calls = some c) :
    c.heap.VouchesFor p := by
  cases hf with
  | placed _ hafter hforges =>
      cases hreached.symm.trans hafter
      exact hforges.after
  | standing _ hafter _ hvouched =>
      cases hreached.symm.trans hafter
      exact hvouched

/-- A header in front of where a stale pointer leads was there before a careful call, or has been forged by
it. -/
theorem Moves.forges (hm : c.Moves call c') (hk : c.Kept) (hcareful : c.Careful call)
    (hstale : p ∉ c'.live) (hvouched : c'.heap.VouchesFor p) :
    (p ∉ c.live ∧ c.heap.VouchesFor p) ∨ c.Forges call c' p := by
  -- Had the pointer been live before, the call would have taken its header away.
  have hbefore : p ∉ c.live := fun hp => hm.unvouched hk hp hstale hvouched
  by_cases hold : c.heap.VouchesFor p
  · exact Or.inl ⟨hbefore, hold⟩
  have ⟨i, x, hplace, hx, hreads⟩ := hvouched
  rcases hm.onlyAt hk hcareful i x hx hreads with ⟨q, hq, hheads | ⟨hfills, b, hb, hin⟩⟩ | hwas
  · exact absurd (heads_inj hplace hheads ▸ hq) hstale
  · exact Or.inr ⟨hfills, hstale, hold, hvouched, q, hq, b, hb, i, x, hplace, hin⟩
  · exact absurd ⟨i, x, hplace, hx, hwas⟩ hold

/-- In a careful run, a header in front of where a stale pointer leads is a forged one. -/
theorem forged_of_vouchesFor (hs : s.validate = .ok ()) (hcareful : CarefulFrom s calls)
    (hreached : reached s calls = some c) (hstale : p ∉ c.live) (hvouched : c.heap.VouchesFor p) :
    Forged s p calls := by
  -- By induction on the calls from the last one back, as it is the state before a call that says what the
  -- call has forged.
  induction calls using List.reverseRecOn generalizing c with
  | nil =>
      obtain ⟨h, hcreate, hrun⟩ := of_reached hreached
      cases hrun
      obtain ⟨i, x, -, -, hreads⟩ := hvouched
      rw [ReadsUsed, show (new h).heap = h from rfl, memoryAt_create hcreate] at hreads
      exact absurd hreads (not_readsUsed_blank x)
  | append_singleton calls call ih =>
      obtain ⟨hcareful', hcall⟩ := carefulFrom_concat hcareful
      obtain ⟨mid, answer, hmid, hstep⟩ := of_reached_concat hreached
      have hk := kept_of_reached hs hcareful' hmid
      rcases (moves_of_step hstep).forges hk (hcall mid hmid) hstale hvouched with hold | hforges
      · exact .standing (ih hcareful' hmid hold.1 hold.2) hreached hstale hvouched
      · exact .placed hmid hreached hforges

end Runs

/-! ## Refusals -/

/-- An operation is refused as one through an invalid pointer. What is used stays as it is, and so does every
byte of every live payload. -/
def Rejects {α : Type} (c : Custody) (op : HeapAction α) : Prop :=
  ∃ h', op c.heap = .error (.refused .invalidPointer) h' ∧ h'.used = c.heap.used ∧
    SamePayloads c.live c.heap h'

/-- Nothing can be done or seen through a pointer. -/
structure Refuses (c : Custody) (p : Pointer) : Prop where
  free : ∀ size, c.Rejects (Heap.free p size)
  reallocate : ∀ old new, c.Rejects (Heap.reallocate p old new)
  resize : ∀ old new, c.Rejects (Heap.resize (some p) old new)
  payloadSize : c.heap.payloadSize p = none
  read : ∀ len, c.heap.read p len = none
  write : ∀ bs, c.heap.write p bs = none

section Refusals

variable {α : Type} {c : Custody} {p : Pointer} {s : Settings} {calls : List Call}
  {blocks : HeapAction α}

theorem rejects_settled (hblocks : blocks c.heap = .error (.refused .invalidPointer) c.heap)
    (account : Nat → Except Fault Nat) : c.Rejects (settled blocks account) := by
  obtain ⟨-, -, -, -, -, -, hused⟩ := askForGrowth_same c.heap
  have hsame := sameBlocks_askForGrowth c.heap
  refine ⟨askForGrowth c.heap, by simp only [settled, hblocks], hused, fun q _ => ?_⟩
  refine ⟨hsame.blockOf? q, fun n => ?_⟩
  simp only [Heap.read, hsame.blockOf?, hsame.segments]

theorem Rejects.bind {β : Type} {f : α → HeapAction β} (hr : c.Rejects blocks) :
    c.Rejects (blocks >>= f) := by
  obtain ⟨h', hrun, hused, hsame⟩ := hr
  exact ⟨h', Action.bind_error hrun, hused, hsame⟩

theorem refuses_of_blockOf?_none (hnone : c.heap.blockOf? p = none) : c.Refuses p := by
  have hfree : ∀ size, c.Rejects (Heap.free p size) :=
    fun size => rejects_settled (giveBack_none hnone) _
  have hreallocate : ∀ old new, c.Rejects (Heap.reallocate p old new) :=
    fun old new => rejects_settled (moveBlock_none hnone old new) _
  refine ⟨hfree, hreallocate, fun old new => ?_, ?_, fun len => ?_, write_none hnone⟩
  · cases new with
    | zero => exact (hfree old).bind
    | succ new => exact (hreallocate old (new + 1)).bind
  · rw [Heap.payloadSize, hnone]
    rfl
  · rw [Heap.read, hnone]
    rfl

/-- Two blocks are handed out and given back, and then a larger one in their place. -/
def covering : List Call :=
  [.allocate 64, .allocate 64, .free 1 64, .free 0 64, .allocate 200]

/-- The header of a used block of 32 bytes. -/
def forgedHeader : Bytes :=
  [32, 0, 0, 0, 0x44, 0x45, 0x53, 0x55]

/-- The larger block's client writes a header where the second block was. -/
def writing : List Call :=
  covering ++ [.write 2 (List.replicate 64 0 ++ forgedHeader)]

/-- Two smaller blocks come in their place, a header is written into the first, and this is copied to where the
second block was. -/
def copying : List Call :=
  [.allocate 64, .allocate 64, .free 1 64, .free 0 64, .allocate 24, .allocate 24,
    .write 2 forgedHeader, .reallocate 2 24 64]

/-- A pointer that is not live is refused, unless a header has been forged for it. -/
theorem stale_refused (hs : s.validate = .ok ()) (hcareful : CarefulFrom s calls)
    (hreached : reached s calls = some c) (hstale : p ∉ c.live) (hplain : ¬ Forged s p calls) :
    c.Refuses p := by
  refine refuses_of_blockOf?_none (Option.eq_none_iff_forall_ne_some.2 fun b hb => hplain ?_)
  exact forged_of_vouchesFor hs hcareful hreached hstale (vouchesFor_of_blockOf? hb)

/-- Two pointers are given back, and their blocks lie in a payload that is handed out after them. -/
theorem stale_refused_covered :
    (oneRegion 4096).validate = .ok () ∧ CarefulFrom (oneRegion 4096) covering ∧
      ∃ c, reached (oneRegion 4096) covering = some c ∧ ⟨0, 80⟩ ∈ c.given ∧ ⟨0, 80⟩ ∉ c.live ∧
        ¬ Forged (oneRegion 4096) ⟨0, 80⟩ covering ∧ c.Refuses ⟨0, 80⟩ := by
  have hrun : (reached (oneRegion 4096) covering).any (fun c => decide (⟨0, 80⟩ ∈ c.given ∧
      ⟨0, 80⟩ ∉ c.live ∧ ¬ c.heap.VouchesFor ⟨0, 80⟩)) = true := by
    decide +kernel
  have hcareful : CarefulFrom (oneRegion 4096) covering := by
    decide +kernel
  obtain ⟨c, hreached, hp⟩ := (Option.any_eq_true _ _).1 hrun
  obtain ⟨hgiven, hstale, hbare⟩ := of_decide_eq_true hp
  have hplain : ¬ Forged (oneRegion 4096) ⟨0, 80⟩ covering :=
    fun hforged => hbare (hforged.vouchesFor hreached)
  exact ⟨rfl, hcareful, c, hreached, hgiven, hstale, hplain,
    stale_refused rfl hcareful hreached hstale hplain⟩

/-- A header of a used block is written into the payload that covers the place, or into another payload whose
content is then copied there. The stale pointer leads to a block again, and that block can be given back. -/
theorem forged_header_accepted :
    (oneRegion 4096).validate = .ok () ∧ ∀ calls ∈ [writing, copying],
      CarefulFrom (oneRegion 4096) calls ∧ ∃ c, reached (oneRegion 4096) calls = some c ∧
        ⟨0, 80⟩ ∈ c.given ∧ ⟨0, 80⟩ ∉ c.live ∧ c.heap.payloadSize ⟨0, 80⟩ = some 24 ∧
        Answers (Heap.free ⟨0, 80⟩ 64) c.heap := by
  have hall : ∀ calls ∈ [writing, copying], CarefulFrom (oneRegion 4096) calls ∧
      (reached (oneRegion 4096) calls).any (fun c => decide (⟨0, 80⟩ ∈ c.given ∧
        ⟨0, 80⟩ ∉ c.live ∧ c.heap.payloadSize ⟨0, 80⟩ = some 24 ∧
          Answers (Heap.free ⟨0, 80⟩ 64) c.heap)) = true := by
    decide +kernel
  refine ⟨rfl, fun calls hcalls => ?_⟩
  obtain ⟨hcareful, hrun⟩ := hall calls hcalls
  obtain ⟨c, hreached, hp⟩ := (Option.any_eq_true _ _).1 hrun
  exact ⟨hcareful, c, hreached, of_decide_eq_true hp⟩

end Refusals

end Custody

end BlockHost.Heap
