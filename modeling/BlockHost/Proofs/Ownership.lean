import BlockHost.Proofs.Counting
import BlockHost.Proofs.LiveBlocks
import Mathlib.Data.List.Perm.Basic

/-!
# What scripts own

Whoever is handed a block has to give it back. A list of allocations is owned in a heap when these
are on lease there, and beside them some leases of others (`Heap.Owned`). Allocating adds to such a
list and giving back takes from it, and neither touches the others, of which nothing has to be known.

That the others are arbitrary is what makes the notion work for replacing scripts, where the memory of
two scripts lies in one heap: seen from either script, the memory of the other one is among the
others. And it says more than it seems to, because the leases of the others may say all about their
payloads.

A language keeps its accounts (`Language.Accounts`) when this is so of all that it does: compiling,
also when that is refused, running, whatever the run comes to, and giving back. The command language
does (`Command.accounts`).
-/

namespace BlockHost

namespace Heap

/-- An allocation as its owner knows it. -/
def Lease.holding (l : Lease) : Pointer × Nat :=
  (l.block.pointer, l.size)

/-- What is held is on lease, and beside it there are the leases of others. -/
def Owned (h : Heap) (held : List (Pointer × Nat)) (others : List Lease) : Prop :=
  ∃ own, (own.map Lease.holding).Perm held ∧ Accounted h (own ++ others)

section Owned

variable {h h' : Heap} {held held' : List (Pointer × Nat)} {L others : List Lease}

theorem Accounted.owned (hk : Accounted h others) : Owned h [] others :=
  ⟨[], .refl [], hk⟩

theorem Owned.accounted (hk : Owned h [] others) : Accounted h others := by
  obtain ⟨own, hp, hk⟩ := hk
  rw [List.perm_nil, List.map_eq_nil_iff] at hp
  rwa [hp] at hk

theorem Owned.perm (hk : Owned h held others) (hp : held.Perm held') : Owned h held' others := by
  obtain ⟨own, hown, hk⟩ := hk
  exact ⟨own, hown.trans hp, hk⟩

theorem Owned.exists_accounted (hk : Owned h held others) :
    ∃ own, own.map Lease.holding = held ∧ Accounted h (own ++ others) := by
  obtain ⟨own, hp, hk⟩ := hk
  have hcomp : Relation.Comp (· = List.map Lease.holding ·) List.Perm held own := by
    rw [List.eq_map_comp_perm]
    exact hp.symm
  obtain ⟨own', hheld, hown⟩ := hcomp
  exact ⟨own', hheld.symm, hk.perm (hown.symm.append_right others)⟩

/-- The account is not about what else a heap keeps. -/
theorem Accounted.of_same (hk : Accounted h L) (hsegments : h'.segments = h.segments)
    (hheads : h'.heads = h.heads) (hoccupied : h'.occupied = h.occupied)
    (hcurrent : h'.current = h.current) (hbase : h'.baseSize = h.baseSize)
    (hmax : h'.maxRegions = h.maxRegions) (hused : h'.used = h.used) : Accounted h' L := by
  obtain ⟨F, hbooked⟩ := hk.booked
  exact ⟨⟨F, hbooked.of_same hsegments hheads hoccupied hcurrent hbase hmax⟩, hused.trans hk.used⟩

/-! ### What can be seen of it -/

theorem Owned.used_eq (hk : Owned h held others) :
    h.used = (held.map Prod.snd).sum + (others.map Lease.size).sum := by
  obtain ⟨own, hown, hk⟩ := hk
  have hsizes : (own.map Lease.size).sum = (held.map Prod.snd).sum := by
    rw [← (hown.map Prod.snd).sum_nat, List.map_map]
    rfl
  rw [hk.used, List.map_append, List.sum_append_nat, hsizes]

theorem Owned.allocations_perm (hk : Owned h held others) :
    h.allocations.Perm (held.map Prod.fst ++ others.map fun l => l.block.pointer) := by
  obtain ⟨own, hown, hk⟩ := hk
  obtain ⟨F, hbooked⟩ := hk.booked
  have hpointers : (own.map fun l => l.block.pointer).Perm (held.map Prod.fst) := by
    have hmap := hown.map Prod.fst
    rwa [List.map_map] at hmap
  have hperm := hbooked.allocations_perm
  rw [List.map_append] at hperm
  exact hperm.trans (hpointers.append_right _)

theorem Owned.nodup_allocations (hk : Owned h held others) : h.allocations.Nodup := by
  obtain ⟨own, -, hk⟩ := hk
  obtain ⟨F, hbooked⟩ := hk.booked
  exact hbooked.nodup_allocations

theorem Owned.payloadSize (hk : Owned h held others) {x : Pointer × Nat} (hx : x ∈ held) :
    ∃ size, h.payloadSize x.1 = some size ∧ x.2 ≤ size := by
  obtain ⟨own, rfl, hown⟩ := hk.exists_accounted
  obtain ⟨F, hbooked⟩ := hown.booked
  obtain ⟨l, hl, rfl⟩ := List.mem_map.1 hx
  have hmem : l ∈ own ++ others := List.mem_append_left _ hl
  have hroom := (hbooked.held l hmem).room
  refine ⟨_, hbooked.payloadSize hmem, ?_⟩
  simp only [Lease.holding]
  omega

/-! ### What happens to it -/

theorem Accounted.takeRequest {index : Nat} (hk : Accounted h L)
    (hrun : h.takeRequest = some (index, h')) : Accounted h' L := by
  rw [Heap.takeRequest] at hrun
  split at hrun
  · cases hrun
  · cases hrun
    exact hk.of_same rfl rfl rfl rfl rfl rfl rfl

theorem Accounted.giveUpGrowth (hk : Accounted h L) : Accounted h.giveUpGrowth L :=
  hk.of_same rfl rfl rfl rfl rfl rfl rfl

theorem Owned.of_accounted (hk : Owned h held others)
    (hkeeps : ∀ L, Accounted h L → Accounted h' L) : Owned h' held others := by
  obtain ⟨own, hown, hk⟩ := hk
  exact ⟨own, hown, hkeeps _ hk⟩

theorem Owned.allocate (hk : Owned h held others) (size : Nat) :
    match Heap.allocate size h with
    | .ok p h' => Owned h' ((p, size) :: held) others
    | .error (.refused _) h' => Owned h' held others
    | .error (.crashed _) _ => False := by
  obtain ⟨own, hp, hk⟩ := hk
  have hconcluded := hk.allocate size
  cases hrun : Heap.allocate size h with
  | ok p h' =>
      rw [hrun] at hconcluded
      obtain ⟨_, ⟨b, rfl, rfl⟩, hk'⟩ := hconcluded
      exact ⟨⟨b, size, nothingKnown⟩ :: own, hp.cons _, hk'⟩
  | error stop h' =>
      rw [hrun] at hconcluded
      cases stop with
      | refused cause => exact ⟨own, hp, hconcluded.1⟩
      | crashed fault => exact hconcluded

theorem Owned.free {p : Pointer} {size : Nat} (hk : Owned h ((p, size) :: held) others) :
    ∃ h', Heap.free p size h = .ok () h' ∧ Owned h' held others := by
  obtain ⟨own, hheld, hown⟩ := hk.exists_accounted
  obtain ⟨l, rest, rfl, hl, hrest⟩ := List.map_eq_cons_iff.1 hheld
  cases hl
  obtain ⟨h', hfree, hown'⟩ := hown.free
  exact ⟨h', hfree, rest, hrest ▸ .refl _, hown'⟩

theorem Owned.releaseAll (hk : Owned h held others) :
    ∃ h', Heap.releaseAll held h = .ok () h' ∧ Accounted h' others := by
  induction held generalizing h with
  | nil => exact ⟨h, rfl, hk.accounted⟩
  | cons x held ih =>
      obtain ⟨p, size⟩ := x
      obtain ⟨h₁, hfree, hk₁⟩ := hk.free
      obtain ⟨h', hrest, hk'⟩ := ih hk₁
      refine ⟨h', ?_, hk'⟩
      have hrelease : Heap.release p size h = .ok () h₁ := by rw [Heap.release, hfree]
      rw [Heap.releaseAll, Action.bind_ok hrelease, hrest]

end Owned

end Heap

/-! ## Languages -/

open Heap (Accounted Lease Owned)

variable {σ α : Type}

/-- How compiling ends: what the script holds is owned, or nothing is when the source is refused. What
a crash leaves behind is lost. -/
def Compiled (holdings : σ → List (Pointer × Nat)) (others : List Lease) :
    EStateM.Result (Stop ScriptFailure) Heap σ → Prop
  | .ok script h => Owned h (holdings script) others
  | .error (.refused _) h => Accounted h others
  | .error (.crashed _) h => ∃ lost, Accounted h (lost ++ others)

/-- What the script of a session holds is owned. -/
def Session.Owning (holdings : σ → List (Pointer × Nat)) (others : List Lease) (s : Session σ) :
    Prop :=
  Owned s.heap (holdings s.script) others

/-- A language whose scripts hold what they are known to hold, and give all of it back. -/
structure Language.Accounts (language : Language σ) (holdings : σ → List (Pointer × Nat)) :
    Prop where
  compile : ∀ (source : String) {h : Heap} {others : List Lease}, Accounted h others →
    Compiled holdings others (language.compile source h)
  run : ∀ {b : Block} {others : List Lease},
    Action.Keeps (Action.Under (Session.Owning holdings others)) (language.run b)
  restore : ∀ {s : Schema} {saved : Atom} {script script' : σ},
    language.restore s saved script = .ok script' → holdings script' = holdings script
  release : ∀ {script : σ} {h : Heap} {others : List Lease}, Owned h (holdings script) others →
    ∃ h', language.release script h = .ok () h' ∧ Accounted h' others

namespace Command

variable {others : List Lease}

theorem refuse_compiled {number : Nat} {reserved : List Holding} {cause : LineFailure} {h : Heap}
    (hk : Owned h reserved others) :
    Compiled Program.holdings others (refuse number reserved cause h) := by
  obtain ⟨h', hrelease, hk'⟩ := hk.releaseAll
  rw [refuse, hrelease]
  exact hk'

theorem assemble_compiled {lines : List String} {number : Nat} {steps : List Step}
    {reserved : List Holding} {h : Heap} (hsteps : ∀ step ∈ steps, step.held = none)
    (hk : Owned h reserved others) :
    Compiled Program.holdings others (assemble number steps reserved lines h) := by
  -- Only `reserve` touches the heap. No step holds anything yet, so what has been reserved is all there
  -- is to own.
  induction lines generalizing number steps reserved h with
  | nil =>
      have hnone : steps.filterMap Step.held = [] := List.filterMap_eq_nil_iff.2 hsteps
      show Owned h (steps.filterMap Step.held ++ reserved) others
      rwa [hnone]
  | cons line rest ih =>
      have hmore : ∀ c : Command, ∀ step ∈ steps ++ [⟨c, none⟩], step.held = none := by
        intro c step hstep
        rcases List.mem_append.mp hstep with hstep | hstep
        · exact hsteps step hstep
        · rw [List.mem_singleton.1 hstep]
      rw [assemble]
      cases Statement.parse line with
      | error cause => exact refuse_compiled hk
      | ok statement =>
          cases statement with
          | nothing => exact ih hsteps hk
          | command c =>
              cases c with
              | flood size =>
                  cases hroom : Fault.addressable size with
                  | error fault =>
                      obtain ⟨own, -, hown⟩ := hk
                      simp only [hroom]
                      exact ⟨own, hown⟩
                  | ok _ =>
                      simp only [hroom]
                      exact ih (hmore _) hk
              | _ => exact ih (hmore _) hk
          | reserve size =>
              have hallocate := hk.allocate size
              simp only
              cases hrun : h.allocate size with
              | ok p h' =>
                  rw [hrun] at hallocate
                  exact ih hsteps (hallocate.perm (List.perm_append_singleton _ _).symm)
              | error stop h' =>
                  rw [hrun] at hallocate
                  cases stop with
                  | refused cause => exact refuse_compiled hallocate
                  | crashed fault => exact hallocate.elim

/-- A script of so many steps, which owns what it holds. The number is kept in mind because a step can
keep memory only when it is there. -/
def Balanced (count : Nat) (others : List Lease) (s : Session Program) : Prop :=
  s.script.steps.length = count ∧ s.Owning Program.holdings others

section Run

open BlockHost.Action (Keeps Under)
open Session

variable {count position : Nat}

theorem held_modify (holding : Holding) {steps : List Step} {position : Nat}
    (hlt : position < steps.length) (hnone : (steps[position]?).bind Step.held = none) :
    ((steps.modify position fun s => { s with held := some holding }).filterMap Step.held).Perm
      (holding :: steps.filterMap Step.held) := by
  -- The holding is pulled to the front, past those of the steps before its own.
  induction steps generalizing position with
  | nil => exact absurd hlt (Nat.not_lt_zero _)
  | cons step steps ih =>
      cases position with
      | zero =>
          rw [List.modify_zero_cons, List.filterMap_cons_none (show step.held = none from hnone),
            List.filterMap_cons]
      | succ position =>
          have hrest := ih (Nat.lt_of_succ_lt_succ hlt) hnone
          rw [List.modify_succ_cons]
          cases hheld : step.held with
          | none => rwa [List.filterMap_cons_none hheld, List.filterMap_cons_none hheld]
          | some x =>
              rw [List.filterMap_cons_some hheld, List.filterMap_cons_some hheld]
              exact (hrest.cons x).trans (.swap _ _ _)

theorem keeps_of_untouched {x : Action α} (hx : Keeps Untouched x) :
    Keeps (Under (Balanced count others)) x := by
  intro s ⟨hcount, howned⟩
  obtain ⟨hscript, hheap⟩ := hx s
  rw [Balanced, Owning, hscript, hheap]
  exact ⟨hcount, howned⟩

theorem holdAt_balanced (hlt : position < count) (size : Nat) :
    Keeps (Under (Balanced count others)) (holdAt position size) := by
  intro s ⟨hcount, howned⟩
  have hstate : (state : Action Program) s = .ok s.script s := rfl
  rw [holdAt, Action.bind_ok hstate]
  cases hheld : (s.script.steps[position]?).bind Step.held with
  | some x => exact ⟨hcount, howned⟩
  | none =>
      have hallocate := Owned.allocate howned size
      simp only
      cases hrun : s.heap.allocate size with
      | ok q heap =>
          have honHeap : (onHeap (Heap.allocate size) : Action Pointer) s = .ok q { s with heap } := by
            rw [onHeap, hrun]
          rw [hrun] at hallocate
          rw [Action.bind_ok honHeap]
          refine ⟨(List.length_modify _ _ _).trans hcount, hallocate.perm ?_⟩
          exact ((held_modify (q, size) (hcount ▸ hlt) hheld).append_right _).symm
      | error stop heap =>
          rw [hrun] at hallocate
          cases stop with
          | refused cause =>
              have honHeap : (onHeap (Heap.allocate size) : Action Pointer) s
                  = .error (.refused (.ofHeap cause)) { s with heap } := by
                rw [onHeap, hrun]
              rw [Action.bind_error honHeap]
              exact ⟨hcount, hallocate⟩
          | crashed fault => exact hallocate.elim

theorem churn_balanced (size : Nat) : Keeps (Under (Balanced count others)) (do
    let p ← onHeap (Heap.allocate size)
    onHeap (Heap.free p size) : Action Unit) := by
  intro s ⟨hcount, howned⟩
  have hallocate := Owned.allocate howned size
  cases hrun : s.heap.allocate size with
  | ok q heap =>
      have honHeap : (onHeap (Heap.allocate size) : Action Pointer) s = .ok q { s with heap } := by
        rw [onHeap, hrun]
      rw [hrun] at hallocate
      obtain ⟨heap', hfree, hk⟩ := hallocate.free
      rw [Action.bind_ok honHeap, onHeap]
      simp only [hfree]
      exact ⟨hcount, hk⟩
  | error stop heap =>
      rw [hrun] at hallocate
      cases stop with
      | refused cause =>
          have honHeap : (onHeap (Heap.allocate size) : Action Pointer) s
              = .error (.refused (.ofHeap cause)) { s with heap } := by
            rw [onHeap, hrun]
          rw [Action.bind_error honHeap]
          exact ⟨hcount, hallocate⟩
      | crashed fault => exact hallocate.elim

theorem addToCounter_balanced (n : Nat) : Keeps (Under (Balanced count others)) (addToCounter n) := by
  intro s hs
  rw [addToCounter_eq]
  split <;> exact hs

/-- One case for each command: only `hold` and `churn` touch the heap. -/
theorem run_balanced (b : Block) (hlt : position < count) (c : Command) :
    Keeps (Under (Balanced count others)) (c.run b position) := by
  cases c with
  | echo => exact keeps_of_untouched (echoPorts_untouched b)
  | count =>
      have hwrite : Keeps (Under (Balanced count others)) (do
          let p ← state
          writeLast b (Writer.scalar (.long p.counter)) : Action Unit) :=
        keeps_of_untouched (state_untouched.bind fun p => writeLast_untouched b _)
      rw [run]
      cases b.input? 0 with
      | none => exact hwrite
      | some input => exact (addToCounter_balanced _).bind fun _ => hwrite
  | hold size => exact holdAt_balanced hlt size
  | churn size => exact churn_balanced size
  | trace text => exact keeps_of_untouched (Action.keeps_modify fun _ => ⟨rfl, rfl⟩)
  | flood size => exact keeps_of_untouched (writeLast_untouched b _)
  | rewind => exact keeps_of_untouched (onOutput_untouched 0 _).leads.discard.keeps
  | fail => exact Action.keeps_throw _
  | panic => exact Action.keeps_throw _

theorem runAll_owning (b : Block) :
    Keeps (Under (Owning Program.holdings others)) (runAll b) := by
  intro s howned
  have hround : ∀ x ∈ s.script.steps.zipIdx,
      Keeps (Under (Balanced s.script.steps.length others)) (x.1.command.run b x.2) :=
    fun x hx => run_balanced b (List.snd_lt_of_mem_zipIdx hx) x.1.command
  have hloop := Action.leads_forM fun x hx => (hround x hx).leads
  exact (hloop.keeps s ⟨rfl, howned⟩).2

end Run

theorem accounts : language.Accounts Program.holdings where
  compile _ _ _ hk := assemble_compiled (fun _ hstep => absurd hstep List.not_mem_nil) hk.owned
  run := runAll_owning _
  restore h := by
    simp only [language, restore] at h
    split at h
    · cases h
      rfl
    · cases h
  release hk := hk.releaseAll

end Command

end BlockHost
