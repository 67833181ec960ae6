import BlockHost.Gate
import Mathlib.Data.List.Basic

/-!
# The gate keeps the two sides apart

Two sides share a value, each at its own pace. The audio side tries the gate once and goes on; the
worker's side tries again and again, and one of its attempts may fail although the gate is free. Who
gets in is handed a guard. With a guard the value can be changed, and when the guard goes out of scope,
in whichever way, the gate is free, no matter whose hands it was in.

Leaving does not ask who leaves. So all rests on there never being two guards, and that in turn rests on
the gate being held while there is one. The two are one invariant (`Contest.Orderly`), and every step
preserves it (`Orderly.step`).

Guards are numbered in the order in which they were handed out. As the one that exists is always the one
with the highest number, every change comes after those of all earlier guards. So it makes no difference
whether changes are ordered by when they were made, or by the guard they were made with first
(`Ledger.step`).
-/

namespace BlockHost.Gate

/-- What a side is handed when it gets in. -/
structure Guard where
  side : Side
  /-- How many have been handed out before. -/
  number : Nat
deriving DecidableEq

/-- How the scope of a guard is left. -/
inductive Exit where
  | finished
  | returned
  | unwound
deriving DecidableEq

/-- What happens at a gate. -/
inductive Event (α : Type) where
  | attempt (side : Side)
  | change (g : Guard) (f : α → α)
  | drop (g : Guard) (exit : Exit)

/-- A gate, the guards that exist, and how many have been handed out. -/
structure Contest (α : Type) where
  gate : Gate α
  guards : List Guard
  issued : Nat

namespace Contest

variable {α : Type}

/-- A gate that is new, of which no guard exists yet. -/
def start (value : α) : Contest α := ⟨.free value, [], 0⟩

/-- What a gate and the guards are after something has happened. Guards change the value and leave, however
the scope ends that they were made for; who has no guard can only try to get in. -/
inductive Step (c : Contest α) : Event α → Contest α → Prop
  | entered {side : Side} {gate : Gate α} (henter : c.gate.tryEnter side = some gate) :
      Step c (.attempt side) ⟨gate, ⟨side, c.issued⟩ :: c.guards, c.issued + 1⟩
  | refused {side : Side} (hheld : c.gate.tryEnter side = none) : Step c (.attempt side) c
  /-- Only the attempts that are made again may fail for no reason. -/
  | spurious : Step c (.attempt .worker) c
  | changed {g : Guard} (f : α → α) (hg : g ∈ c.guards) :
      Step c (.change g f) { c with gate := c.gate.update f }
  | dropped {g : Guard} (exit : Exit) (hg : g ∈ c.guards) :
      Step c (.drop g exit) { c with gate := c.gate.leave, guards := c.guards.erase g }

/-- What a gate and the guards are after a row of events. -/
inductive Run (first : Contest α) : List (Event α) → Contest α → Prop
  | nil : Run first [] first
  | snoc {events : List (Event α)} {e : Event α} {c d : Contest α} (hrun : Run first events c)
      (hstep : c.Step e d) : Run first (events ++ [e]) d

/-! ## At most one guard -/

/-- Nobody holds the gate and there is no guard, or there is one guard, which was handed out last, and its
side holds the gate. -/
inductive Orderly (c : Contest α) : Prop
  | idle (hholder : c.gate.holder = none) (hguards : c.guards = [])
  | held (g : Guard) (hholder : c.gate.holder = some g.side) (hguards : c.guards = [g])
      (hlast : g.number + 1 = c.issued)

section Orderly

variable {c d : Contest α} {g : Guard} {e : Event α}

theorem tryEnter_eq_some {gate gate' : Gate α} {side : Side} :
    gate.tryEnter side = some gate' ↔
      gate.holder = none ∧ gate' = { gate with holder := some side } := by
  rw [tryEnter]
  cases gate.holder with
  | none =>
      refine ⟨fun h => ⟨rfl, (Option.some.inj h).symm⟩, ?_⟩
      rintro ⟨-, rfl⟩
      rfl
  | some other =>
      constructor
      · intro h
        cases h
      · rintro ⟨h, -⟩
        cases h

theorem tryEnter_eq_none {gate : Gate α} {side : Side} :
    gate.tryEnter side = none ↔ gate.holder ≠ none := by
  rw [tryEnter]
  cases gate.holder with
  | none => exact iff_of_false (Option.some_ne_none _) (not_not_intro rfl)
  | some other => exact iff_of_true rfl (Option.some_ne_none other)

theorem Orderly.eq_of_mem (hc : c.Orderly) (hg : g ∈ c.guards) :
    c.gate.holder = some g.side ∧ c.guards = [g] ∧ g.number + 1 = c.issued := by
  cases hc with
  | idle hholder hguards =>
      rw [hguards] at hg
      cases hg
  | held g' hholder hguards hlast =>
      rw [hguards] at hg
      cases List.mem_singleton.1 hg
      exact ⟨hholder, hguards, hlast⟩

theorem Orderly.guards_eq_nil (hc : c.Orderly) : c.guards = [] ↔ c.gate.holder = none := by
  cases hc with
  | idle hholder hguards => exact iff_of_true hguards hholder
  | held g hholder hguards _ =>
      rw [hholder, hguards]
      exact iff_of_false (List.cons_ne_nil g []) (Option.some_ne_none g.side)

theorem Orderly.step (hc : c.Orderly) (hstep : c.Step e d) : d.Orderly := by
  cases hstep with
  | refused _ | spurious => exact hc
  | entered henter =>
      obtain ⟨hholder, rfl⟩ := tryEnter_eq_some.1 henter
      have hguards := hc.guards_eq_nil.2 hholder
      exact .held _ rfl (congrArg (List.cons _) hguards) rfl
  | @changed g f hg =>
      obtain ⟨hholder, hguards, hlast⟩ := hc.eq_of_mem hg
      exact .held g hholder hguards hlast
  | @dropped g exit hg =>
      obtain ⟨-, hguards, -⟩ := hc.eq_of_mem hg
      refine .idle rfl ?_
      show c.guards.erase g = []
      rw [hguards, List.erase_cons_head]

theorem Orderly.run {events : List (Event α)} (hc : c.Orderly) (hrun : c.Run events d) :
    d.Orderly := by
  induction hrun with
  | nil => exact hc
  | snoc _ hstep ih => exact ih.step hstep

end Orderly

/-! ## No update is lost -/

section Ledger

variable {c d : Contest α} {e : Event α} {events : List (Event α)} {value : α}

/-- The change that is made with the guard of a number. -/
def changeBy (number : Nat) : Event α → Option (α → α)
  | .change g f => if g.number = number then some f else none
  | _ => none

/-- All changes of so many guards, in the order of the guards. -/
def changes (events : List (Event α)) (issued : Nat) : List (α → α) :=
  (List.range issued).flatMap fun number => events.filterMap (changeBy number)

/-- The value after changes, one behind the other. -/
def applyAll (fs : List (α → α)) (value : α) : α :=
  fs.foldl (fun v f => f v) value

theorem changes_succ (events : List (Event α)) (issued : Nat) :
    changes events (issued + 1)
      = changes events issued ++ events.filterMap (changeBy issued) := by
  rw [changes, List.range_succ, List.flatMap_append, List.flatMap_singleton]
  rfl

theorem changes_snoc_of_none (events : List (Event α)) (issued : Nat)
    (hnone : ∀ number, changeBy number e = none) :
    changes (events ++ [e]) issued = changes events issued := by
  induction issued with
  | zero => rfl
  | succ issued ih =>
      rw [changes_succ, changes_succ, ih, List.filterMap_append, List.filterMap_cons_none (hnone _),
        List.filterMap_nil, List.append_nil]

/-- A change that is made with the last guard comes after all others. -/
theorem changes_snoc_last (events : List (Event α)) (g : Guard) (f : α → α) :
    changes (events ++ [.change g f]) (g.number + 1) = changes events (g.number + 1) ++ [f] := by
  have hearlier : ∀ issued ≤ g.number,
      changes (events ++ [.change g f]) issued = changes events issued := by
    intro issued hle
    induction issued with
    | zero => rfl
    | succ issued ih =>
        have hother : changeBy issued (.change g f) = none := if_neg (by omega)
        rw [changes_succ, changes_succ, ih (by omega), List.filterMap_append,
          List.filterMap_cons_none hother, List.filterMap_nil, List.append_nil]
  have hown : changeBy g.number (.change g f) = some f := if_pos rfl
  rw [changes_succ, changes_succ, hearlier g.number (Nat.le_refl _), List.filterMap_append,
    List.filterMap_cons_some hown, List.filterMap_nil, List.append_assoc]

/-- The value is what the changes have made of it. Who has not been handed a guard yet has changed
nothing. -/
structure Ledger (value : α) (events : List (Event α)) (c : Contest α) : Prop where
  orderly : c.Orderly
  value_eq : c.gate.value = applyAll (changes events c.issued) value
  later : ∀ number, c.issued ≤ number → events.filterMap (changeBy number) = []

theorem ledger_start (value : α) : Ledger value [] (start value) :=
  ⟨.idle rfl rfl, rfl, fun _ _ => rfl⟩

theorem Ledger.of_none (hc : Ledger value events c) (hnone : ∀ number, changeBy number e = none)
    (hd : d.Orderly) (hvalue : d.gate.value = c.gate.value) (hissued : d.issued = c.issued) :
    Ledger value (events ++ [e]) d := by
  refine ⟨hd, ?_, ?_⟩
  · rw [hvalue, hissued, changes_snoc_of_none events c.issued hnone]
    exact hc.value_eq
  · intro number hle
    rw [List.filterMap_append, hc.later number (hissued ▸ hle), List.filterMap_cons_none (hnone _),
      List.filterMap_nil, List.append_nil]

theorem Ledger.step (hc : Ledger value events c) (hstep : c.Step e d) :
    Ledger value (events ++ [e]) d := by
  have hd := hc.orderly.step hstep
  cases hstep with
  | refused _ | spurious | dropped _ _ => exact hc.of_none (fun _ => rfl) hd rfl rfl
  | @entered side gate henter =>
      -- The new guard has a number under which nothing has been changed yet.
      obtain ⟨-, rfl⟩ := tryEnter_eq_some.1 henter
      have hnone : ∀ number, changeBy number (.attempt side : Event α) = none := fun _ => rfl
      refine ⟨hd, ?_, ?_⟩
      · rw [changes_snoc_of_none events _ hnone, changes_succ, hc.later c.issued (Nat.le_refl _),
          List.append_nil]
        exact hc.value_eq
      · intro number hle
        rw [List.filterMap_append, hc.later number (Nat.le_of_succ_le hle),
          List.filterMap_cons_none (hnone _), List.filterMap_nil, List.append_nil]
  | @changed g f hg =>
      obtain ⟨-, -, hlast⟩ := hc.orderly.eq_of_mem hg
      refine ⟨hd, ?_, ?_⟩
      · show f c.gate.value = applyAll (changes _ c.issued) value
        rw [← hlast, changes_snoc_last events g f, applyAll, List.foldl_append, hlast, hc.value_eq]
        rfl
      · intro number hle
        have hlt : g.number + 1 ≤ number := hlast ▸ hle
        have hother : changeBy number (.change g f) = none := if_neg (by omega)
        rw [List.filterMap_append, hc.later number hle, List.filterMap_cons_none hother,
          List.filterMap_nil, List.append_nil]

theorem Ledger.run (hrun : (start value).Run events d) : Ledger value events d := by
  induction hrun with
  | nil => exact ledger_start value
  | snoc _ hstep ih => exact ih.step hstep

end Ledger

/-! ## From one guard to the next -/

section Handover

variable {c d : Contest α} {e : Event α} {events : List (Event α)}

theorem Step.issued_le (hstep : c.Step e d) : c.issued ≤ d.issued := by
  cases hstep with
  | entered _ => exact Nat.le_succ _
  | refused _ | spurious | changed _ _ | dropped _ _ => exact Nat.le_refl _

theorem Run.issued_le (hrun : c.Run events d) : c.issued ≤ d.issued := by
  induction hrun with
  | nil => exact Nat.le_refl _
  | snoc _ hstep ih => exact Nat.le_trans ih hstep.issued_le

/-- While there is no guard, nothing changes. -/
theorem Run.value_eq (hrun : c.Run events d) (hguards : c.guards = [])
    (hissued : d.issued = c.issued) : d.gate.value = c.gate.value ∧ d.guards = [] := by
  induction hrun with
  | nil => exact ⟨rfl, hguards⟩
  | @snoc _ e mid d hrun hstep ih =>
      have hle := hrun.issued_le
      have hle' := hstep.issued_le
      obtain ⟨hvalue, hnone⟩ := ih (by omega)
      cases hstep with
      | refused _ | spurious => exact ⟨hvalue, hnone⟩
      | entered henter =>
          have hmore : mid.issued + 1 = c.issued := hissued
          omega
      | changed f hg | dropped exit hg =>
          rw [hnone] at hg
          cases hg

end Handover

/-- The gate keeps the two sides apart, whatever they do and in whichever order. There is at most one
guard. The gate is free if there is none, and otherwise it is held by the side that has the guard, and
the audio side is turned away. However a guard is dropped, the gate is free. Who gets in next finds the
value as the last guard has left it. So the value is the result of all changes that have been made, in
the order in which the guards were handed out. -/
theorem run_exclusive {value : α} {events : List (Event α)} {c : Contest α}
    (hrun : (start value).Run events c) :
    c.guards.length ≤ 1 ∧ (c.gate.holder = none ↔ c.guards = []) ∧
      (∀ g ∈ c.guards, c.gate.holder = some g.side) ∧
      (c.gate.tryEnter .audio = none ↔ c.guards ≠ []) ∧
      (∀ g exit d, c.Step (.drop g exit) d →
        d.gate.holder = none ∧ d.guards = [] ∧
          ∀ more last side next, d.Run more last → last.issued = d.issued →
            last.Step (.attempt side) next → next.gate.value = c.gate.value) ∧
      c.gate.value = applyAll (changes events c.issued) value := by
  have hledger := Ledger.run hrun
  have hc := hledger.orderly
  refine ⟨?_, hc.guards_eq_nil.symm, fun g hg => (hc.eq_of_mem hg).1, ?_, ?_, hledger.value_eq⟩
  · cases hc with
    | idle _ hguards =>
        rw [hguards]
        exact Nat.zero_le 1
    | held g _ hguards _ =>
        rw [hguards]
        exact Nat.le_refl 1
  · rw [tryEnter_eq_none, ne_eq, ne_eq, hc.guards_eq_nil]
  · intro g exit d hdrop
    have hd := hc.step hdrop
    cases hdrop with
    | dropped _ hg =>
        refine ⟨rfl, hd.guards_eq_nil.2 rfl, ?_⟩
        intro more last side next hmore hissued hnext
        obtain ⟨hvalue, -⟩ := hmore.value_eq (hd.guards_eq_nil.2 rfl) hissued
        cases hnext with
        | refused _ | spurious => exact hvalue
        | entered henter =>
            obtain ⟨-, rfl⟩ := tryEnter_eq_some.1 henter
            exact hvalue

/-- The worker is turned away twice, once by the audio side's guard and once for no reason, and adds to
what the audio side has left when its scope was unwound. -/
theorem run_exclusive_contended :
    let audio : Guard := ⟨.audio, 0⟩
    let worker : Guard := ⟨.worker, 1⟩
    let events : List (Event Nat) := [.attempt .audio, .attempt .worker, .change audio (· + 1),
      .drop audio .unwound, .attempt .worker, .attempt .worker, .change worker (· * 10)]
    ∃ c, (start 0).Run events c ∧ c.guards = [worker] ∧ c.gate.holder = some .worker ∧
      c.gate.tryEnter .audio = none ∧ c.gate.value = 10 := by
  intro audio worker events
  have hrun : (start 0).Run events ⟨⟨some .worker, 10⟩, [worker], 2⟩ := by
    have hentered := Run.nil.snoc (@Step.entered Nat (start 0) .audio _ rfl)
    have hrefused := hentered.snoc (@Step.refused Nat _ .worker rfl)
    have hchanged := hrefused.snoc (.changed (g := audio) (· + 1) List.mem_cons_self)
    have hdropped := hchanged.snoc (.dropped .unwound List.mem_cons_self)
    have hagain := (hdropped.snoc .spurious).snoc (@Step.entered Nat _ .worker _ rfl)
    exact hagain.snoc (.changed (g := worker) (· * 10) List.mem_cons_self)
  obtain ⟨-, -, howner, hturned, -, hvalue⟩ := run_exclusive hrun
  exact ⟨_, hrun, rfl, howner worker List.mem_cons_self, hturned.2 (List.cons_ne_nil _ _), hvalue⟩

end Contest

end BlockHost.Gate
