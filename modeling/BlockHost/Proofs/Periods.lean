import BlockHost.Proofs.Counting
import BlockHost.Proofs.CutReading
import BlockHost.Proofs.NewHosts
import Mathlib.Data.List.DropRight

/-!
# Periods of waiting

Between two calls that find the gate free, the calls that find it held wait for the second one. This
is a period, and it ends with that call, whatever becomes of its block. What waits is said by the
calls of the period alone (`Host.Awaits`): each backlog is what an empty one becomes when it is
offered these calls.

From this it follows what the script is shown. A call shows the script events of the calls that have
waited for it, at most once, and then its own, and no later call shows them again. So over a whole run
the events shown at a port are among those of the calls, in the same order
(`Awaits.presented_sublist`), and a counter of events stays below their number
(`Counts.free`).
-/

namespace BlockHost

namespace Backlog

variable {b b' : Backlog}

theorem Fresh.splits (h : b.Fresh) : b.Splits [] [] where
  seen_eq := by rw [h.events_eq]; rfl
  fits := by
    have hle := b.size_le
    rw [b.size_eq, List.reverse_eq_nil_iff.1 h.events_eq] at hle
    rw [h.events_eq]
    exact ⟨fun e he => absurd he List.not_mem_nil, hle⟩
  first := fun e he => by cases he
  dropped_eq := h.dropped_eq
  failed_iff := by
    rw [h.failed_eq]
    exact ⟨fun hfailed => (by cases hfailed), fun hne => absurd rfl hne⟩
  whole := fun e he => by rw [h.events_eq] at he; cases he

/-- Whether an event is kept or dropped, no other event is removed for it. -/
theorem events_begins_add (b : Backlog) (e : Int64 × Atom) : b.events <+: (b.add e).events := by
  cases hfailed : (b.add e).failed with
  | false =>
      rw [(add_of_kept hfailed).2]
      exact List.prefix_append _ _
  | true =>
      rw [add_of_dropped hfailed]
      exact List.prefix_rfl

theorem events_begins_foldl (b : Backlog) (events : List (Int64 × Atom)) :
    b.events <+: (events.foldl add b).events := by
  induction events generalizing b with
  | nil => exact List.prefix_rfl
  | cons e rest ih => exact (events_begins_add b e).trans (ih (b.add e))

theorem events_begins_append {input : Option Atom} {frames : UInt32}
    (h : b.append input frames = .ok b') : b.events <+: b'.events := by
  rw [append_eq] at h
  split at h
  · cases h
    exact events_begins_foldl b _
  · cases h

theorem appendAll_snoc {blocks : List (Option Atom × UInt32)} {block : Option Atom × UInt32}
    (h : b.appendAll blocks = .ok b') :
    b.appendAll (blocks ++ [block]) = b'.append block.1 block.2 := by
  rw [appendAll, List.foldlM_append]
  rw [appendAll] at h
  rw [h]
  exact bind_pure (b'.append block.1 block.2)

end Backlog

namespace Host

open Session

variable {σ : Type}

/-! ## Runs, call by call -/

/-- A call of a run, the host that it finds, and what it brings about. -/
structure Turn (σ : Type) where
  before : Host σ
  call : Call
  answer : Answer σ

/-- The calls of a run that are answered. -/
def turns (language : Language σ) : Host σ → List Call → List (Turn σ)
  | _, [] => []
  | h, c :: rest =>
      match h.answer language c with
      | .error _ => []
      | .ok a => ⟨h, c, a⟩ :: turns language a.host rest

theorem map_answer_turns (language : Language σ) (h : Host σ) (calls : List Call) :
    (h.turns language calls).map Turn.answer = (h.answers language calls).1 := by
  induction calls generalizing h with
  | nil => rfl
  | cons c rest ih =>
      rw [turns, answers]
      cases h.answer language c with
      | error fault => rfl
      | ok a => exact congrArg (a :: ·) (ih a.host)

theorem map_call_turns (language : Language σ) (h : Host σ) (calls : List Call) :
    (h.turns language calls).map Turn.call <+: calls := by
  induction calls generalizing h with
  | nil => exact List.prefix_rfl
  | cons c rest ih =>
      rw [turns]
      cases h.answer language c with
      | error fault => exact List.nil_prefix
      | ok a => exact List.cons_prefix_cons.2 ⟨rfl, ih a.host⟩

/-- The calls that wait at the end of some calls. -/
def waitingAfter (calls : List Call) : List Call :=
  calls.rtakeWhile Call.contended

namespace Call

/-- What a call puts aside at a port. -/
def block (settings : Settings) (port : Nat) (c : Call) : Option Atom × UInt32 :=
  (((c.inputs.take settings.inputs)[port]?).bind Buffer.atom?, c.frames)

/-- The block of a call, as the script is shown it. -/
def live (settings : Settings) (s : Schema) (c : Call) : Block :=
  { schema := s, frames := c.frames, inputs := (c.inputs.take settings.inputs).map Buffer.atom? }

end Call

/-- The events that a call shows the script at a port. -/
def Turn.presented (language : Language σ) (s : Schema) (port : Nat) (t : Turn σ) :
    List (Int64 × Atom) :=
  (t.before.shown language t.call).flatMap fun b => eventsOf s (b.input? port)

/-- The given calls wait, and each backlog holds what an empty one keeps of them. -/
structure Awaits (settings : Settings) (s : Schema) (waiting : List Call) (h : Host σ) : Prop where
  settings_eq : h.settings = settings
  schema_eq : h.schema = s
  idle : h.engine.holder = none
  blocks_eq : h.stashedBlocks = waiting.length
  length_backlogs : h.backlogs.length = settings.inputs
  backlogs : ∀ (port : Nat) (b : Backlog), h.backlogs[port]? = some b →
    ∃ empty : Backlog, empty.Fresh ∧ empty.schema = s ∧
      empty.appendAll (waiting.map (Call.block settings port)) = .ok b

/-- A call that has to wait removes no event and shows none. -/
structure Turn.Keeps (language : Language σ) (t : Turn σ) : Prop where
  stashed : t.answer.outcome = .stashed
  shown : t.before.shown language t.call = []
  length_backlogs : t.answer.host.backlogs.length = t.before.backlogs.length
  kept : ∀ (port : Nat) (b : Backlog), t.before.backlogs[port]? = some b →
    ∃ b', t.answer.host.backlogs[port]? = some b' ∧ b.events <+: b'.events

/-- A call that finds the gate free ends the period. No block waits any more, and all backlogs are
empty. The script has been shown at most one block in front of that of the call, and only when there
were calls waiting: the first of their events. -/
structure Turn.Spends (language : Language σ) (settings : Settings) (s : Schema)
    (waiting : List Call) (t : Turn σ) : Prop where
  nothing_waits : t.answer.host.hasBacklog = false
  length_backlogs : t.answer.host.backlogs.length = settings.inputs
  empty : ∀ b ∈ t.answer.host.backlogs,
    b.Fresh ∧ b.sequence = Atom.encode (s.id .sequence) []
  shown : ∃ stash : List Block, t.before.shown language t.call <+: stash ++ [t.call.live settings s] ∧
    stash.length ≤ 1 ∧ (waiting = [] → stash = []) ∧
      ∀ b ∈ stash, ∀ port, intTimed (eventsOf s (b.input? port))
        <+: offers s saturated 0 (waiting.map (Call.block settings port))

section Awaits

variable {language : Language σ} {settings : Settings} {s : Schema} {waiting : List Call}
variable {h : Host σ} {c : Call} {a : Answer σ}

theorem New.awaits (hnew : h.New language settings) : h.Awaits settings h.schema [] where
  settings_eq := hnew.settings_eq
  schema_eq := rfl
  idle := hnew.idle
  blocks_eq := hnew.blocks_eq
  length_backlogs := hnew.length_backlogs
  backlogs := fun _ b hb =>
    have hfresh := hnew.backlogs b (List.mem_of_getElem? hb)
    ⟨b, hfresh.1, hfresh.2, rfl⟩

/-- A backlog holds the first of the events that the waiting calls offer, and has lost the others. -/
theorem Awaits.splits (hh : h.Awaits settings s waiting) {port : Nat} {b : Backlog}
    (hb : h.backlogs[port]? = some b) :
    b.schema = s ∧
      ∃ lost, b.Splits (offers s saturated 0 (waiting.map (Call.block settings port))) lost := by
  obtain ⟨empty, hfresh, hschema, hrun⟩ := hh.backlogs port b hb
  have hoffset : empty.offset = saturated 0 := hfresh.offset_eq
  obtain ⟨-, -, hsame, -, lost, hsplits⟩ := hfresh.splits.appendAll hoffset _ hrun
  rw [List.nil_append, hschema] at hsplits
  exact ⟨hsame.trans hschema, lost, hsplits⟩

theorem Awaits.held (hh : h.Awaits settings s waiting) (hc : c.contended = true)
    (ha : h.answer language c = .ok a) :
    a.host.Awaits settings s (waiting ++ [c]) ∧ Turn.Keeps language ⟨h, c, a⟩ := by
  rcases answer_held language hh.idle hc with ⟨after, buffers, hanswer, hstashed⟩ | ⟨hanswer, -⟩
  · rw [ha] at hanswer
    cases hanswer
    rw [hh.settings_eq] at hstashed
    refine ⟨⟨hstashed.settings_eq.trans hh.settings_eq, hstashed.schema_eq.trans hh.schema_eq,
      ?_, ?_, hstashed.length_backlogs.trans hh.length_backlogs, ?_⟩, rfl, shown_held hh.idle hc,
      hstashed.length_backlogs, ?_⟩
    · rw [hstashed.engine_eq]
      exact hh.idle
    · rw [hstashed.blocks_eq, hh.blocks_eq, List.length_append, List.length_singleton]
    · intro port b' hb'
      obtain ⟨b, hb, happend⟩ := hstashed.of_getElem? hb'
      obtain ⟨empty, hfresh, hschema, hrun⟩ := hh.backlogs port b hb
      refine ⟨empty, hfresh, hschema, ?_⟩
      rw [List.map_append, List.map_singleton, Backlog.appendAll_snoc hrun]
      exact happend
    · intro port b hb
      obtain ⟨b', hb', happend⟩ := hstashed.backlogs port b hb
      exact ⟨b', hb', Backlog.events_begins_append happend⟩
  · rw [ha] at hanswer
    cases hanswer

/-- Without backlogs of its own making, a host has only empty ones. -/
theorem Awaits.fresh (hh : h.Awaits settings s waiting) {engine : Engine σ} {after : Host σ}
    (hspent : h.Spent engine after) {b : Backlog} (hb : b ∈ after.backlogs) :
    b.Fresh ∧ b.schema = s := by
  rw [hspent.backlogs_eq] at hb
  split at hb
  · obtain ⟨b, hmem, rfl⟩ := List.mem_map.1 hb
    obtain ⟨port, hport⟩ := List.mem_iff_getElem?.1 hmem
    exact ⟨b.fresh_reset, (hh.splits hport).1⟩
  · next hnone =>
      have hwaiting : waiting = [] := by
        rw [hasBacklog, decide_eq_true_eq, hh.blocks_eq] at hnone
        exact List.eq_nil_of_length_eq_zero (by omega)
      obtain ⟨port, hport⟩ := List.mem_iff_getElem?.1 hb
      obtain ⟨empty, hfresh, hschema, hrun⟩ := hh.backlogs port b hport
      rw [hwaiting] at hrun
      cases hrun
      exact ⟨hfresh, hschema⟩

/-- What is shown of the calls that wait are the first of their events. -/
theorem Awaits.replay_offers (hh : h.Awaits settings s waiting) {r : Replay}
    (hr : h.replay = some r) (port : Nat) :
    intTimed (eventsOf s ((Replay.block s r).input? port))
      <+: offers s saturated 0 (waiting.map (Call.block settings port)) := by
  have hinput : (Replay.block s r).input? port = (r.inputs[port]?).join := rfl
  have hinputs : r.inputs = h.backlogs.map fun b => Atom.parse b.sequence := by
    rw [replay] at hr
    split at hr <;> cases hr
    rfl
  rw [hinput, hinputs, List.getElem?_map]
  cases hb : h.backlogs[port]? with
  | none => exact List.nil_prefix
  | some b =>
      obtain ⟨rfl, lost, hsplits⟩ := hh.splits hb
      have hread := Backlog.eventsOf_sequence_begins hsplits.whole
      rw [hsplits.seen_eq]
      exact (hread.map fun e => (e.1.toInt, e.2)).trans (List.prefix_append _ _)

theorem Awaits.free (hh : h.Awaits settings s waiting) (hc : c.contended = false)
    (ha : h.answer language c = .ok a) :
    a.host.Awaits settings s [] ∧ Turn.Spends language settings s waiting ⟨h, c, a⟩ := by
  obtain ⟨after, outcome, buffers, hanswer, hended⟩ := answer_free language hh.idle hc
  rw [ha] at hanswer
  cases hanswer
  obtain ⟨engine, hspent⟩ := hended.spent
  have hlength : after.backlogs.length = settings.inputs := by
    rw [hspent.backlogs_eq, ← hh.length_backlogs]
    split
    · exact List.length_map _
    · rfl
  refine ⟨⟨hspent.settings_eq.trans hh.settings_eq, hspent.schema_eq.trans hh.schema_eq, ?_,
    hspent.blocks_eq, hlength, fun port b hb => ?_⟩, hspent.hasBacklog_eq, hlength,
    fun b hb => ?_, (h.replay.map (Replay.block s)).toList, ?_, ?_, ?_, ?_⟩
  · rw [hspent.engine_eq]
    rfl
  · obtain ⟨hfresh, hschema⟩ := hh.fresh hspent (List.mem_of_getElem? hb)
    exact ⟨b, hfresh, hschema, rfl⟩
  · obtain ⟨hfresh, hschema⟩ := hh.fresh hspent hb
    exact ⟨hfresh, hschema ▸ hfresh.sequence_eq⟩
  · have hshown := shown_begins language hh.idle hc
    rw [toShow, hh.schema_eq, hh.settings_eq] at hshown
    exact hshown
  · cases h.replay <;> simp
  · rintro rfl
    have hnone : h.replay = none := by
      rw [replay, hasBacklog, hh.blocks_eq]
      rfl
    rw [hnone]
    rfl
  · intro b hb port
    cases hr : h.replay with
    | none =>
        rw [hr] at hb
        cases hb
    | some r =>
        rw [hr] at hb
        obtain rfl := List.mem_singleton.1 hb
        exact hh.replay_offers hr port

/-! ## What a run shows -/

theorem atZero_offers (s : Schema) (delay : Nat → Nat) (settings : Settings) (port before : Nat)
    (waiting : List Call) :
    (offers s delay before (waiting.map (Call.block settings port))).map
        (fun e => ((0 : Int64), e.2))
      = atZero (waiting.flatMap (Call.events settings s port)) := by
  induction waiting generalizing before with
  | nil => rfl
  | cons c rest ih =>
      have hown : (shifted (delay before) (c.events settings s port)).map
          (fun e => ((0 : Int64), e.2)) = atZero (c.events settings s port) := by
        rw [shifted, List.map_map]
        rfl
      rw [List.map_cons, Call.block, offers, List.map_append, ih, List.flatMap_cons, atZero_append]
      exact congrArg (· ++ _) hown

theorem eventsOf_live (settings : Settings) (s : Schema) (port : Nat) (c : Call) :
    eventsOf s ((c.live settings s).input? port) = c.events settings s port := by
  show eventsOf s (((c.inputs.take settings.inputs).map Buffer.atom?)[port]?).join = _
  rw [List.getElem?_map, Call.events, eventsAt]
  cases (c.inputs.take settings.inputs)[port]? <;> rfl

/-- Each event that a call shows is one of those that have waited, or one of its own. -/
theorem Turn.Spends.presented {t : Turn σ} (ht : t.Spends language settings s waiting)
    (port : Nat) :
    (atZero (t.presented language s port)).Sublist
      (atZero (waiting.flatMap (Call.events settings s port))
        ++ atZero (t.call.events settings s port)) := by
  obtain ⟨stash, hprefix, hone, -, hstash⟩ := ht.shown
  have hwaited : atZero (stash.flatMap fun b => eventsOf s (b.input? port))
      <+: atZero (waiting.flatMap (Call.events settings s port)) := by
    cases stash with
    | nil => exact List.nil_prefix
    | cons b rest =>
        have hnil : rest = [] := List.eq_nil_of_length_eq_zero (by
          rw [List.length_cons] at hone
          omega)
        have hfirst := (hstash b List.mem_cons_self port).map fun e => ((0 : Int64), e.2)
        rw [atZero_offers, intTimed, List.map_map] at hfirst
        rw [hnil, List.flatMap_singleton]
        exact hfirst
  have hall : t.presented language s port
      <+: (stash.flatMap fun b => eventsOf s (b.input? port)) ++ t.call.events settings s port := by
    obtain ⟨rest, heq⟩ := hprefix
    rw [← eventsOf_live, ← List.flatMap_singleton (fun b : Block => eventsOf s (b.input? port)),
      ← List.flatMap_append, ← heq, List.flatMap_append]
    exact List.prefix_append _ _
  have hzero := (hall.map fun e => ((0 : Int64), e.2)).sublist
  rw [List.map_append] at hzero
  exact hzero.trans (hwaited.sublist.append (List.Sublist.refl _))

/-- Over a run no event is shown twice, neither one that has waited nor another one. -/
theorem Awaits.presented_sublist (hh : h.Awaits settings s waiting) (calls : List Call)
    (port : Nat) :
    (atZero ((h.turns language calls).flatMap (Turn.presented language s port))).Sublist
      (atZero (waiting.flatMap (Call.events settings s port))
        ++ atZero (((h.turns language calls).map Turn.call).flatMap
          (Call.events settings s port))) := by
  induction calls generalizing h waiting with
  | nil => exact List.nil_sublist _
  | cons c rest ih =>
      rw [turns]
      cases ha : h.answer language c with
      | error fault => exact List.nil_sublist _
      | ok a =>
          rw [List.flatMap_cons, List.map_cons, List.flatMap_cons]
          cases hc : c.contended with
          | true =>
              obtain ⟨hnext, hturn⟩ := hh.held hc ha
              have hnone : Turn.presented language s port ⟨h, c, a⟩ = [] := by
                rw [Turn.presented, hturn.shown]
                rfl
              have hrest := ih hnext
              rw [List.flatMap_append, List.flatMap_singleton, atZero_append] at hrest
              rw [hnone, List.nil_append, atZero_append, ← List.append_assoc]
              exact hrest
          | false =>
              obtain ⟨hnext, hturn⟩ := hh.free hc ha
              have hrest := ih hnext
              rw [List.flatMap_nil] at hrest
              rw [atZero_append, atZero_append, ← List.append_assoc]
              exact (hturn.presented port).append hrest

/-- What holds of the host before each call, when every call keeps it. -/
theorem of_turns {I : List Call → Host σ → Prop} (past : List Call) {calls : List Call}
    (hstep : ∀ past h c a, I past h → h.answer language c = .ok a → I (past ++ [c]) a.host)
    (hfirst : I past h) {before future : List (Turn σ)} {t : Turn σ}
    (hturns : h.turns language calls = before ++ t :: future) :
    I (past ++ before.map Turn.call) t.before ∧
      t.before.answer language t.call = .ok t.answer := by
  induction calls generalizing h past before with
  | nil =>
      rw [turns] at hturns
      cases (List.append_eq_nil_iff.1 hturns.symm).2
  | cons c rest ih =>
      rw [turns] at hturns
      cases ha : h.answer language c with
      | error fault =>
          rw [ha] at hturns
          cases (List.append_eq_nil_iff.1 hturns.symm).2
      | ok a =>
          rw [ha] at hturns
          cases before with
          | nil =>
              cases hturns
              rw [List.map_nil, List.append_nil]
              exact ⟨hfirst, ha⟩
          | cons first before =>
              obtain ⟨rfl, hrest⟩ := List.cons.inj hturns
              obtain ⟨hbefore, hanswer⟩ := ih _ (hstep past h c a hfirst ha) hrest
              rw [List.append_assoc] at hbefore
              exact ⟨hbefore, hanswer⟩

theorem waitingAfter_held (past : List Call) (hc : c.contended = true) :
    waitingAfter (past ++ [c]) = waitingAfter past ++ [c] :=
  List.rtakeWhile_concat_pos _ _ _ hc

theorem waitingAfter_free (past : List Call) (hc : c.contended = false) :
    waitingAfter (past ++ [c]) = [] :=
  List.rtakeWhile_concat_neg _ _ _ (by rw [hc]; exact Bool.false_ne_true)

theorem Awaits.answered {past : List Call} (hh : h.Awaits settings s (waitingAfter past))
    (ha : h.answer language c = .ok a) :
    a.host.Awaits settings s (waitingAfter (past ++ [c])) := by
  cases hc : c.contended with
  | true =>
      rw [waitingAfter_held past hc]
      exact (hh.held hc ha).1
  | false =>
      rw [waitingAfter_free past hc]
      exact (hh.free hc ha).1

end Awaits

/-! ## What a run counts -/

/-- How many events calls show at the first port. -/
def countable (settings : Settings) (s : Schema) (calls : List Call) : Nat :=
  (calls.flatMap (Call.events settings s 0)).length

/-- The script is one of the given commands. Its counter is below what it would be if every event of
the calls had been counted once for each command that counts, and those of the calls that wait have
not been counted. -/
def Counted (settings : Settings) (s : Schema) (commands : List Command) (waiting calls : List Call)
    (h : Host Command.Program) : Prop :=
  ∀ p, h.engine.value.script = some p → p.commands = commands ∧
    p.counter.toInt + (commands.count .count * countable settings s waiting : Nat)
      ≤ (commands.count .count * countable settings s calls : Nat)

section Counted

variable {settings : Settings} {s : Schema} {waiting calls : List Call} {commands : List Command}
variable {h : Host Command.Program} {c : Call} {a : Answer Command.Program}

theorem countable_append (settings : Settings) (s : Schema) (calls more : List Call) :
    countable settings s (calls ++ more)
      = countable settings s calls + countable settings s more := by
  rw [countable, List.flatMap_append, List.length_append]
  rfl

theorem sum_countable_le (hh : h.Awaits settings s waiting) (c : Call) :
    ((blocksOf s h.replay (c.live settings s)).map Block.countable).sum
      ≤ countable settings s (waiting ++ [c]) := by
  have hlive : (c.live settings s).countable = countable settings s [c] := by
    rw [countable, List.flatMap_singleton, ← eventsOf_live]
    rfl
  rw [countable_append, ← hlive, blocksOf, List.map_append, List.sum_append, List.map_singleton,
    List.sum_singleton]
  refine Nat.add_le_add_right ?_ _
  cases hr : h.replay with
  | none => exact Nat.zero_le _
  | some r =>
      have hle := (hh.replay_offers hr 0).length_le
      have hall := congrArg List.length (atZero_offers s saturated settings 0 0 waiting)
      rw [intTimed, List.length_map] at hle
      rw [List.length_map, atZero, List.length_map] at hall
      rw [Option.map_some, Option.toList_some, List.map_singleton, List.sum_singleton, countable,
        ← hall]
      exact hle

theorem Counted.held (hcounted : h.Counted settings s commands waiting calls)
    (hh : h.Awaits settings s waiting) (hc : c.contended = true)
    (ha : h.answer Command.language c = .ok a) :
    a.host.Counted settings s commands (waiting ++ [c]) (calls ++ [c]) := by
  rcases answer_held Command.language hh.idle hc with
    ⟨after, buffers, hanswer, hstashed⟩ | ⟨hanswer, -⟩
  · rw [ha] at hanswer
    cases hanswer
    intro p hp
    rw [hstashed.engine_eq] at hp
    obtain ⟨hcommands, hcounter⟩ := hcounted p hp
    refine ⟨hcommands, ?_⟩
    rw [countable_append, countable_append, Nat.mul_add, Nat.mul_add]
    omega
  · rw [ha] at hanswer
    cases hanswer

theorem Counted.free (hcounted : h.Counted settings s commands waiting calls)
    (hh : h.Awaits settings s waiting) (hc : c.contended = false)
    (ha : h.answer Command.language c = .ok a) :
    a.host.Counted settings s commands [] (calls ++ [c]) := by
  obtain ⟨after, outcome, buffers, hanswer, hended⟩ := answer_free Command.language hh.idle hc
  rw [ha] at hanswer
  cases hanswer
  have hnone : countable settings s [] = 0 := rfl
  intro p hp
  rw [countable_append, Nat.mul_add, hnone, Nat.mul_zero]
  cases hended with
  | noScript hscript hspent =>
      rw [hspent.engine_eq, Gate.free, hscript] at hp
      cases hp
  | disabled hscript hdisabled hspent =>
      rw [hspent.engine_eq] at hp
      obtain ⟨hcommands, hcounter⟩ := hcounted p hp
      exact ⟨hcommands, by omega⟩
  | @run script hscript henabled hspent =>
      rw [hspent.engine_eq, Gate.free, Engine.script_noted] at hp
      cases hp
      obtain ⟨hcommands, hcounter⟩ := hcounted script hscript
      have hraises : Command.Raises commands _ _ := Command.play_raises h.schema h.replay
        ((c.inputs.take h.settings.inputs).map Buffer.atom?) c.frames
      have hle := sum_countable_le hh c
      rw [Call.live, ← hh.schema_eq, ← hh.settings_eq] at hle
      obtain ⟨hkept, hraised⟩ :=
        hraises (h.session script (c.outputs.take h.settings.outputs)) hcommands
      refine ⟨hkept, Int.le_trans (Int.add_le_add_right hraised _) ?_⟩
      have hmost := Nat.mul_le_mul_left (commands.count .count) hle
      rw [hh.settings_eq, hh.schema_eq] at hmost ⊢
      rw [countable_append, Nat.mul_add] at hmost
      have hscript : (h.session script (c.outputs.take settings.outputs)).script = script := rfl
      rw [hscript]
      omega

end Counted

/-! ## Every run -/

section Runs

variable {supply : Supply} {settings : Settings} {first : Host Command.Program}

/-- A host that has just been built has counted nothing. -/
theorem New.counted (hnew : first.New Command.language settings) :
    ∃ commands, first.Counted settings first.schema commands [] [] ∧
      (settings.code = some "count" → commands = [.count]) := by
  cases hscript : first.engine.value.script with
  | none =>
      refine ⟨[], fun p hp => ?_, fun hcode => ?_⟩
      · rw [hscript] at hp
        cases hp
      · rw [hnew.script_eq.1 hscript] at hcode
        cases hcode
  | some script =>
      obtain ⟨source, heap, after, hsource, hcompile⟩ := hnew.compiled script hscript
      refine ⟨script.commands, fun p hp => ?_, fun hcode => ?_⟩
      · rw [hscript] at hp
        cases hp
        rw [Command.compile_counter hcompile]
        exact ⟨rfl, Int.le_of_eq (Int.zero_add _)⟩
      · rw [hsource] at hcode
        cases hcode
        have hcount := (Command.compile_count heap).symm.trans hcompile
        cases hcount
        rfl

/-- In every run of a host of commands, a call that finds the gate free ends the period, whatever
becomes of its block. No block waits afterwards, all backlogs are empty, and the script has been
shown the first events of the calls that waited. A call that finds the gate held removes no event.
Over the whole run no event is shown twice, and a counter stays below the number of events of all
calls so far, for each `count` that adds to it. -/
theorem periods_end (hcreate : create supply Command.language settings = .ok first)
    (calls : List Call) :
    let turns := first.turns Command.language calls
    (∀ past t future, turns = past ++ t :: future →
      (t.call.contended = true → t.Keeps Command.language) ∧
      (t.call.contended = false → t.Spends Command.language settings first.schema
        (waitingAfter (past.map Turn.call))) ∧
      ∀ p, t.answer.host.engine.value.script = some p →
        let events : Int := countable settings first.schema ((past ++ [t]).map Turn.call)
        p.counter.toInt ≤ p.commands.count .count * events ∧
          (settings.code = some "count" → p.counter.toInt ≤ events)) ∧
    ∀ port, (atZero (turns.flatMap (Turn.presented Command.language first.schema port))).Sublist
      (atZero ((turns.map Turn.call).flatMap (Call.events settings first.schema port))) := by
  intro turns
  have hnew := created hcreate
  obtain ⟨commands, hcounted, hcount⟩ := hnew.counted
  refine ⟨fun past t future hturns => ?_, fun port => ?_⟩
  · let I (calls : List Call) (h : Host Command.Program) : Prop :=
      h.Awaits settings first.schema (waitingAfter calls) ∧
        h.Counted settings first.schema commands (waitingAfter calls) calls
    have hstep : ∀ calls h c a, I calls h → h.answer Command.language c = .ok a →
        I (calls ++ [c]) a.host := by
      rintro calls h c a ⟨hh, hcounted⟩ ha
      refine ⟨hh.answered ha, ?_⟩
      cases hc : c.contended with
      | true =>
          rw [waitingAfter_held calls hc]
          exact hcounted.held hh hc ha
      | false =>
          rw [waitingAfter_free calls hc]
          exact hcounted.free hh hc ha
    obtain ⟨hbefore, ha⟩ := of_turns [] hstep ⟨hnew.awaits, hcounted⟩ hturns
    rw [List.nil_append] at hbefore
    obtain ⟨h, c, a⟩ := t
    refine ⟨fun hc => (hbefore.1.held hc ha).2, fun hc => (hbefore.1.free hc ha).2, ?_⟩
    intro p hp
    obtain ⟨hcommands, hbound⟩ := (hstep _ h c a hbefore ha).2 p hp
    rw [hcommands, List.map_append, List.map_singleton]
    rw [Int.natCast_mul, Int.natCast_mul] at hbound
    have hwaiting := Int.mul_nonneg (Int.natCast_nonneg (commands.count .count)) (Int.natCast_nonneg
      (countable settings first.schema (waitingAfter (past.map Turn.call ++ [c]))))
    have hmost := Int.le_trans (Int.le_add_of_nonneg_right hwaiting) hbound
    refine ⟨hmost, fun hcode => ?_⟩
    rw [hcount hcode, List.count_singleton_self, Int.natCast_one, Int.one_mul] at hmost
    exact hmost
  · exact hnew.awaits.presented_sublist calls port

end Runs

/-- The schema of a host that has been built. -/
def firstSchema : Schema := Schema.ofVocabulary (Vocabulary.ofRegistry .empty).1

/-- A block has to wait. The next one has no room for the counter, after the event that has waited
has been counted. The third one counts its own event only. -/
theorem periods_end_overflow :
    let calls := [noteCall firstSchema true 3,
      { noteCall firstSchema false 5 with outputs := [.blank 16] }, noteCall firstSchema false 7]
    ∃ first held short last p, create .ample Command.language (scripted "count") = .ok first ∧
      first.turns Command.language calls = [held, short, last] ∧
      short.answer.outcome = .bypassed .overflow ∧ short.answer.host.hasBacklog = false ∧
      (∀ b ∈ short.answer.host.backlogs, b.Fresh) ∧ last.answer.outcome = .processed false ∧
      last.answer.host.engine.value.script = some p ∧ p.counter = 2 ∧
      p.counter.toInt ≤ countable (scripted "count") first.schema calls := by
  intro calls
  have hcheck : ((create .ample Command.language (scripted "count")).toOption.map fun first =>
      (first.turns Command.language calls).map fun t =>
        (t.answer.outcome, t.answer.host.engine.value.script.map Command.Program.counter))
      = some [(.stashed, some 0), (.bypassed .overflow, some 1), (.processed false, some 2)] := by
    decide +kernel
  simp only [Option.map_eq_some_iff, toOption_eq_some] at hcheck
  obtain ⟨first, hcreate, hcheck⟩ := hcheck
  obtain ⟨held, rest, hts, -, hrest⟩ := List.map_eq_cons_iff.1 hcheck
  obtain ⟨short, rest, rfl, hshort, hrest⟩ := List.map_eq_cons_iff.1 hrest
  obtain ⟨last, rest, rfl, hlast, hrest⟩ := List.map_eq_cons_iff.1 hrest
  obtain rfl := List.map_eq_nil_iff.1 hrest
  obtain ⟨houtcome, -⟩ := Prod.mk.inj hshort
  obtain ⟨houtcome', hcounter⟩ := Prod.mk.inj hlast
  obtain ⟨p, hp, hcount⟩ := Option.map_eq_some_iff.1 hcounter
  have hprefix := map_call_turns Command.language first calls
  rw [hts] at hprefix
  have hcalls : [held, short, last].map Turn.call = calls := hprefix.eq_of_length rfl
  have hfree : short.call.contended = false :=
    congrArg Call.contended (List.cons.inj (List.cons.inj hcalls).2).1
  obtain ⟨hturns, -⟩ := periods_end hcreate calls
  have hspends := (hturns [held] short [last] hts).2.1 hfree
  have hbound := ((hturns [held, short] last [] hts).2.2 p hp).2 rfl
  refine ⟨first, held, short, last, p, hcreate, hts, houtcome, hspends.nothing_waits,
    fun b hb => (hspends.empty b hb).1, houtcome', hp, hcount, ?_⟩
  rw [← hcalls]
  exact hbound

end Host

end BlockHost
