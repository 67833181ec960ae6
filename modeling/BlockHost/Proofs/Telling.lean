import BlockHost.CallScripts.Run
import BlockHost.Proofs.BlockOutputs
import BlockHost.Proofs.TreeReading
import BlockHost.Proofs.Upkeep
import Mathlib.Algebra.Order.BigOperators.Group.List
import Mathlib.Algebra.Order.Ring.Nat

/-!
# What the user is told

Telling is a write like any other: a sequence is opened, filled with a message for everything that there
is to tell, and closed. What it comes to is known beforehand, from the messages alone: their bytes, and
whether these fit. The notes about what is still to be told are changed behind the last of the writes
only, so what has been written in part was not told at all, and what has been told is not told again.

Three things are put together. The calls append the bytes of the messages (`appends_messages`), each
message is a tree and reads back as one (`Message.ofAtom?_atom`), and the host that is left is known
either way (`Host.tells_of_writes`). Reading back needs a sequence that can declare its size in one
word (`Told.wrapped`); telling does not.
-/

namespace BlockHost

/-! ## Messages as atoms -/

/-- The keys of messages are told apart. -/
def Vocabulary.Keyed (v : Vocabulary) : Prop :=
  [v.id .code, v.id .error, v.id .trace].Nodup

instance (v : Vocabulary) : Decidable v.Keyed :=
  inferInstanceAs (Decidable (List.Nodup _))

namespace Message

variable {s : Schema} {m : Message}

/-- What is written of a message: an object of one property, the text. -/
def tree (v : Vocabulary) (m : Message) : Tree :=
  .object 0 (v.id .message) (.cons (v.id m.term, 0) (.leaf (.string m.text)) .nil)

/-- The message as an atom. -/
def atom (v : Vocabulary) (m : Message) : Atom :=
  .ofBody ((m.tree v).type v) ((m.tree v).body v)

/-- The room that a message takes in a sequence: a time, two headers, three pairs of words, and the text
with the NUL behind it. -/
def room (m : Message) : Nat :=
  32 + padded (Atom.headerSize + ((Utf8.encode m.text).length + 1))

theorem valid_tree (v : Vocabulary) (h : '\x00' ∉ m.text.toList) : (m.tree v).Valid v :=
  ⟨trivial, h, trivial⟩

theorem bodySize_tree (v : Vocabulary) (m : Message) :
    (m.tree v).bodySize = 16 + padded (Atom.headerSize + ((Utf8.encode m.text).length + 1)) := by
  have htext : (Writer.textBody m.text).length = (Utf8.encode m.text).length + 1 :=
    List.length_append
  simp only [tree, Tree.bodySize, Branches.size, Form.markSize, Leaf.body, htext]
  omega

theorem length_body_tree (v : Vocabulary) (h : '\x00' ∉ m.text.toList) :
    ((m.tree v).body v).length
      = 16 + padded (Atom.headerSize + ((Utf8.encode m.text).length + 1)) := by
  rw [Tree.length_body _ (valid_tree v h), bodySize_tree]

theorem length_body_atom_lt (v : Vocabulary) (h : '\x00' ∉ m.text.toList) (hroom : m.room < 2 ^ 32) :
    (m.atom v).body.length < 2 ^ 32 := by
  rw [room] at hroom
  rw [atom, Atom.body_ofBody, length_body_tree v h]
  omega

theorem length_bytes_tree (v : Vocabulary) (h : '\x00' ∉ m.text.toList) :
    ((m.tree v).bytes v).length
      = 24 + padded (Atom.headerSize + ((Utf8.encode m.text).length + 1)) := by
  have hmod := padded_mod (Atom.headerSize + ((Utf8.encode m.text).length + 1))
  rw [Tree.bytes, Atom.length_encode, length_body_tree v h]
  generalize padded (Atom.headerSize + ((Utf8.encode m.text).length + 1)) = n at hmod
  unfold padded
  omega

theorem eventSize_atom (v : Vocabulary) (h : '\x00' ∉ m.text.toList) (t : Int64) :
    Backlog.eventSize (t, m.atom v) = m.room := by
  have hbytes : padded (Atom.headerSize + (m.atom v).body.length) = _ :=
    (Atom.length_encode _ _).symm.trans (length_bytes_tree v h)
  rw [Backlog.eventSize, hbytes, room, ← Nat.add_assoc]

theorem write_eq (m : Message) (w : Writer) : m.write w = (m.tree w.vocabulary).write w := by
  rw [write, Action.get_bind, tree, Tree.write]
  simp only [Branches.write, Tree.write, Leaf.write, Form.writeMark, bind_assoc, pure_bind]

/-- On the grid, outside a vector and with a frame to spare, a message is written as one atom. -/
theorem appends_write (h : '\x00' ∉ m.text.toList) {w : Writer} (hw : w.failed = false)
    (halign : w.offset % 8 = 0) (hdepth : w.depth < 8) (hv : w.inVector = false) :
    Writer.Appends w ((m.tree w.vocabulary).bytes w.vocabulary) ()
      (w.append ((m.tree w.vocabulary).bytes w.vocabulary)) (m.write w) := by
  rw [write_eq]
  exact (m.tree w.vocabulary).appends hw halign hv hdepth (valid_tree w.vocabulary h)

theorem ofProperty?_term {v : Vocabulary} (hkeys : v.Keyed) (m : Message) :
    ofProperty? v (v.id m.term) m.text = some m := by
  simp only [Vocabulary.Keyed, List.nodup_cons, List.mem_cons, List.not_mem_nil, or_false, not_or,
    not_false_eq_true, List.nodup_nil, and_true] at hkeys
  obtain ⟨⟨herror, htrace⟩, hother⟩ := hkeys
  cases m with
  | code text => exact if_pos rfl
  | error text => exact (if_neg (Ne.symm herror)).trans (if_pos rfl)
  | trace text =>
      exact (if_neg (Ne.symm htrace)).trans ((if_neg (Ne.symm hother)).trans (if_pos rfl))

/-- The message is read back: its key says what it is, and its text ends at the first NUL. -/
theorem ofAtom?_atom (hs : s.vocabulary.Distinct) (hkeys : s.vocabulary.Keyed)
    (h : '\x00' ∉ m.text.toList) (hsize : (m.atom s.vocabulary).body.length < 2 ^ 32) :
    ofAtom? s (m.atom s.vocabulary) = some m := by
  have hbody : (m.tree s.vocabulary).bodySize < 2 ^ 32 := by
    rwa [bodySize_tree, ← length_body_tree s.vocabulary h]
  have hshows : (m.tree s.vocabulary).Shows s (m.atom s.vocabulary) :=
    Tree.shows hs (m.tree s.vocabulary) (valid_tree s.vocabulary h) hbody
  obtain ⟨htype, -, -, hobject, child, others, hfound, ⟨-, -, hvalue⟩, rfl⟩ := hshows
  have htext : child.text? s = some m.text := by
    rw [Atom.text?, show child.value? s = some (.text m.text) from hvalue]
    rfl
  have hkind : (s.vocabulary.isObject (m.atom s.vocabulary).type
      && (m.atom s.vocabulary).objectType? s == some (s.id .message)) = true := by
    rw [htype, hobject]
    simp [Tree.type, tree, Vocabulary.isObject, Schema.id]
  rw [ofAtom?, if_pos hkind, hfound, List.findSome?_cons]
  simp only [Form.key, htext, Option.bind_some, ofProperty?_term hkeys]

end Message

/-! ## The calls -/

/-- Messages as events, all at one time. -/
def messageEvents (v : Vocabulary) (t : Int64) (messages : List Message) : List (Int64 × Atom) :=
  messages.map fun m => (t, m.atom v)

/-- The room that messages take as a sequence. -/
def toldSize (messages : List Message) : Nat :=
  Atom.headerSize + (messages.map Message.room).sum

section Calls

open Writer

variable {v : Vocabulary} {t : Int64} {messages : List Message} {buffer : Buffer} {frames : UInt32}

theorem length_messageEvents (h : ∀ m ∈ messages, '\x00' ∉ m.text.toList) :
    (encodeEvents (messageEvents v t messages)).length = (messages.map Message.room).sum := by
  rw [length_encodeEvents, messageEvents, List.map_map]
  congr 1
  exact List.map_congr_left fun m hm => Message.eventSize_atom v (h m hm) t

theorem appends_messages {events : List (Int64 × Atom)} (hle : lastTime 0 events ≤ t)
    (h : ∀ m ∈ messages, '\x00' ∉ m.text.toList) :
    Appends (holding v buffer events) (encodeEvents (messageEvents v t messages)) ()
      (holding v buffer (events ++ messageEvents v t messages))
      (Host.writeMessages t messages (holding v buffer events)) := by
  -- A message is a time and an atom. Behind both of them the writer holds one event more, and the rest
  -- of the messages is put behind that.
  induction messages generalizing events with
  | nil =>
      rw [messageEvents, List.map_nil, List.append_nil]
      exact appends_pure
  | cons m rest ih =>
      obtain ⟨hm, hrest⟩ := List.forall_mem_cons.1 h
      have htime := appends_time (w := holding v buffer events) rfl rfl hle
      have hoffset : (holding v buffer events).offset % 8 = 0 := by
        have hmod := length_encodeEvents_mod events
        rw [holding, offset_withFrames, offset_append, offset_start, List.length_append,
          Atom.length_header]
        omega
      let mid := ((holding v buffer events).append (Bytes.int64 t)).withFrames [⟨0, .sequence, t⟩]
      have hwrite : Appends mid (Atom.encode (m.atom v).type (m.atom v).body) ()
          (mid.append (Atom.encode (m.atom v).type (m.atom v).body)) (m.write mid) := by
        have hmod : mid.offset % 8 = 0 := by
          rw [offset_withFrames, offset_append, Bytes.length_int64]
          omega
        exact Message.appends_write hm rfl hmod (show 1 < 8 by decide) rfl
      have hone := htime.bind (f := fun _ => m.write) rfl fun _ => hwrite
      rw [append_withFrames, append_append, holding_step] at hone
      have hmore := @ih (events ++ [(t, m.atom v)]) (by
        rw [lastTime_append, lastTime_cons, lastTime_nil]
        exact Int64.le_refl t) hrest
      have hroom : (holding v buffer (events ++ [(t, m.atom v)])).room
          = (holding v buffer events).room
            - (Bytes.int64 t ++ Atom.encode (m.atom v).type (m.atom v).body).length := by
        rw [← holding_step, room_withFrames, room_append]
      have hall := hone.bind (f := fun _ => Host.writeMessages t rest) hroom fun _ => hmore
      rw [List.append_assoc events, List.singleton_append] at hall
      exact hall

theorem appends_openSequence (v : Vocabulary) (buffer : Buffer) :
    Appends (start v buffer) (Atom.header (v.id .sequence) 0) firstFrame (holding v buffer [])
      (openSequence (start v buffer)) := by
  have hopen :=
    appends_enter (w := start v buffer) rfl rfl (Nat.zero_lt_succ 7) .sequence .sequence []
  rw [List.append_nil, opened, offset_start, List.append_nil] at hopen
  rw [openSequence, firstFrame, holding, encodeEvents_nil, List.append_nil]
  exact hopen

/-- The sequence of messages at the last frame of a block, as bytes. -/
def control (v : Vocabulary) (frames : UInt32) (messages : List Message) : Bytes :=
  Atom.encode (v.id .sequence) (encodeEvents (messageEvents v (Int64.ofNat (frames.toNat - 1)) messages))

theorem length_control (v : Vocabulary) (frames : UInt32)
    (h : ∀ m ∈ messages, '\x00' ∉ m.text.toList) :
    (control v frames messages).length = toldSize messages := by
  have hmod := length_encodeEvents_mod (messageEvents v (Int64.ofNat (frames.toNat - 1)) messages)
  rw [control, Atom.length_encode, toldSize,
    ← length_messageEvents (v := v) (t := Int64.ofNat (frames.toNat - 1)) h]
  unfold padded Atom.headerSize
  omega

theorem appends_control (v : Vocabulary) (buffer : Buffer) (frames : UInt32)
    (h : ∀ m ∈ messages, '\x00' ∉ m.text.toList) :
    Appends (start v buffer) (control v frames messages) (toldSize messages)
      ((start v buffer).append (control v frames messages))
      (Host.writeControl frames messages (start v buffer)) := by
  let t := Int64.ofNat (frames.toNat - 1)
  have hlast : lastTime 0 [] ≤ t := Host.lastFrame_nonneg ⟨.ofVocabulary v, frames, []⟩
  have hfill := @appends_messages v t messages buffer [] hlast h
  rw [List.nil_append] at hfill
  have hfinish : ((start v buffer).append (control v frames messages)).finish
      = .ok (toldSize messages) := by
    show Except.ok ((start v buffer).append (control v frames messages)).offset = _
    rw [offset_append, offset_start, Nat.zero_add, length_control v frames h]
  have hlength : (control v frames messages).length
      = (Atom.header (v.id .sequence) 0 ++ (encodeEvents (messageEvents v t messages) ++ [])).length := by
    rw [length_control v frames h, List.append_nil, List.length_append, Atom.length_header,
      length_messageEvents h]
    rfl
  have hroom : (holding v buffer []).room
      = (start v buffer).room - (Atom.header (v.id .sequence) 0).length := by
    rw [room_holding, room_start, Atom.length_header]
    rfl
  have hroom' : (holding v buffer (messageEvents v t messages)).room
      = (holding v buffer []).room - (encodeEvents (messageEvents v t messages)).length := by
    rw [room_holding, room_holding, encodeEvents_nil, List.length_nil]
    omega
  rw [Appends, hlength]
  refine (appends_openSequence v buffer).bind hroom fun _ => hfill.bind hroom' fun _ => ?_
  -- Closing writes the size where the header is, and needs no room of its own.
  refine ⟨fun _ => ?_, fun hlt => absurd hlt (Nat.not_lt_zero _)⟩
  rw [Action.bind_ok (close_holding v buffer (messageEvents v t messages)), Action.get_bind]
  have hencoded : ((start v buffer).append (Atom.encode (v.id .sequence)
      (encodeEvents (messageEvents v t messages)))).finish = .ok (toldSize messages) := hfinish
  rw [hencoded]
  rfl

end Calls

/-! ## What is read -/

/-- A buffer to which messages have been told at the last of so many frames: it begins with their
sequence, and is read as these messages when the size of the sequence can be said in 32 bits. -/
structure Told (s : Schema) (frames : UInt32) (messages : List Message) (before after : Buffer) :
    Prop where
  bytes_eq : after.bytes
    = control s.vocabulary frames messages ++ before.bytes.drop (toldSize messages)
  reads : toldSize messages < Writer.sequenceLimit → ∃ a, after.atom? = some a ∧
    a.type = s.id .sequence ∧ a.totalSize = toldSize messages ∧
      (a.children s).map (fun x => (x.1, Message.ofAtom? s x.2))
        = messages.map fun m => (.time (Int64.ofNat (frames.toNat - 1)), some m)

section Reading

variable {s : Schema} {messages : List Message}

theorem whole_messageEvents (v : Vocabulary) (t : Int64) (h : ∀ m ∈ messages, '\x00' ∉ m.text.toList)
    (hsize : ∀ m ∈ messages, m.room < 2 ^ 32) : Whole (messageEvents v t messages) := by
  intro e he
  obtain ⟨m, hm, rfl⟩ := List.mem_map.1 he
  exact (Atom.toNat_size_ofBody (Message.length_body_atom_lt v (h m hm) (hsize m hm)) _).symm

theorem told_control (hs : s.vocabulary.Distinct) (hkeys : s.vocabulary.Keyed) (frames : UInt32)
    (h : ∀ m ∈ messages, '\x00' ∉ m.text.toList) (buffer : Buffer) :
    Told s frames messages buffer ((Writer.start s.vocabulary buffer).append
      (control s.vocabulary frames messages)).buffer where
  bytes_eq := by
    have hahead : ((Writer.start s.vocabulary buffer).append
        (control s.vocabulary frames messages)).ahead
          = (buffer.drop 0).drop (control s.vocabulary frames messages).length := rfl
    have hwritten : (Writer.start s.vocabulary buffer).written = [] := rfl
    rw [Writer.bytes_buffer, Writer.written_append, hwritten, List.nil_append, hahead,
      Buffer.bytes_drop, Buffer.bytes_drop, List.drop_zero, length_control _ _ h]
  reads hlt := by
    let t := Int64.ofNat (frames.toNat - 1)
    have hsum : (messages.map Message.room).sum < 2 ^ 32 := by
      rw [toldSize, Writer.sequenceLimit] at hlt
      omega
    have hroom : ∀ m ∈ messages, m.room < 2 ^ 32 := fun m hm =>
      Nat.lt_of_le_of_lt (List.le_sum_of_mem (List.mem_map_of_mem hm)) hsum
    have hevents : (encodeEvents (messageEvents s.vocabulary t messages)).length < 2 ^ 32 := by
      rwa [length_messageEvents h]
    have hkind : s.kindOf (s.id .sequence) = .sequence := Schema.kindOf_id hs (by decide)
    refine ⟨_, Writer.atom?_closed s.vocabulary hevents, rfl, ?_, ?_⟩
    · rw [Atom.totalSize, Atom.toNat_size_ofBody hevents, length_messageEvents h]
      rfl
    · rw [Atom.children, Atom.type_ofBody, show s.kindOf (s.vocabulary.id .sequence) = _ from hkind]
      simp only [Atom.body_ofBody]
      rw [Layout.parse_encodeEvents (whole_messageEvents _ t h hroom), messageEvents, List.map_map,
        List.map_map]
      refine List.map_congr_left fun m hm => ?_
      show (Key.time t, Message.ofAtom? s (m.atom s.vocabulary)) = (.time t, some m)
      rw [Message.ofAtom?_atom hs hkeys (h m hm) (Message.length_body_atom_lt _ (h m hm) (hroom m hm))]

/-- Messages of 2 ^ 32 bytes are all written, and none is read back. -/
theorem Told.wrapped {frames : UInt32} {before after : Buffer}
    (h : Told s frames messages before after) (htexts : ∀ m ∈ messages, '\x00' ∉ m.text.toList)
    (hsize : toldSize messages = Atom.headerSize + 2 ^ 32) :
    ∃ a, after.atom? = some a ∧ a.children s = [] := by
  have hlength := length_messageEvents (v := s.vocabulary)
    (t := Int64.ofNat (frames.toNat - 1)) htexts
  rw [Nat.add_left_cancel (hsize : Atom.headerSize + _ = _)] at hlength
  refine ⟨.ofBody (s.vocabulary.id .sequence) [], ?_, Atom.children_ofBody_nil _ _⟩
  rw [Buffer.atom?_eq, h.bytes_eq, control, Atom.parse_encode_wrapped _ hlength]

end Reading

/-! ## A source without commands -/

/-- A source of so many hyphens, which is a remark from its first line to its last. -/
def remark (n : Nat) : String :=
  String.ofList (List.replicate n '-')

theorem linesAfter_hyphens (m n : Nat) :
    Text.linesAfter (List.replicate m '-') (List.replicate n '-')
      = Text.linesAfter (List.replicate (m + n) '-') [] := by
  induction n generalizing m with
  | zero => rfl
  | succ n ih =>
      have hstep : Text.linesAfter (List.replicate m '-') ('-' :: List.replicate n '-')
          = Text.linesAfter ('-' :: List.replicate m '-') (List.replicate n '-') :=
        if_neg (by decide : ¬ '-' = '\n')
      rw [List.replicate_succ, hstep, ← List.replicate_succ, ih, Nat.add_right_comm, Nat.add_assoc]

theorem lines_remark {n : Nat} (hpos : 0 < n) : Text.lines (remark n) = [remark n] := by
  have hlines := linesAfter_hyphens 0 n
  rw [List.replicate_zero, Nat.zero_add] at hlines
  have hsome : (List.replicate n '-').isEmpty = false := by
    rw [List.isEmpty_replicate, decide_eq_false (Nat.ne_of_gt hpos)]
  rw [Text.lines, remark, String.toList_ofList, hlines, Text.linesAfter, hsome]
  simp only [Bool.false_eq_true, if_false, List.reverse_replicate, List.map_singleton]

theorem trim_hyphens (n : Nat) : Text.trim (List.replicate n '-') = List.replicate n '-' := by
  have hkept : (List.replicate n '-').dropWhile Text.isBlank = List.replicate n '-' := by
    cases n with
    | zero => rfl
    | succ n => rw [List.replicate_succ, List.dropWhile_cons_of_neg (by decide)]
  rw [Text.trim, hkept, List.reverse_replicate, hkept, List.reverse_replicate]

theorem compile_remark {n : Nat} (htwo : 2 ≤ n) (heap : Heap) :
    Command.compile (remark n) heap = .ok { steps := [], reserved := [], counter := 0 } heap := by
  obtain ⟨k, rfl⟩ := Nat.exists_eq_add_of_le' htwo
  have hparse : Command.Statement.parse (remark (k + 2)) = .ok .nothing := by
    rw [Command.Statement.parse, remark, String.toList_ofList, trim_hyphens, List.replicate_succ,
      List.replicate_succ]
    rfl
  rw [Command.compile, lines_remark (Nat.succ_pos _), Command.assemble, hparse]
  rfl

theorem nul_not_mem_remark (n : Nat) : '\x00' ∉ (remark n).toList := by
  rw [remark, String.toList_ofList]
  exact fun hnul => absurd (List.eq_of_mem_replicate hnul) (by decide)

theorem length_encode_remark (n : Nat) : (Utf8.encode (remark n)).length = n := by
  rw [Utf8.encode, remark, String.toList_ofList]
  induction n with
  | zero => rfl
  | succ n ih =>
      rw [List.replicate_succ, Utf8.encodeChars, List.flatMap_cons, ← Utf8.encodeChars,
        List.length_append, ih, Utf8.length_encodeChar, Nat.add_comm]
      rfl

/-! ## The host -/

namespace Host

theorem keyed_ofRegistry : (Vocabulary.ofRegistry .empty).1.Keyed := by
  decide

variable {σ : Type} {h : Host σ} {messages : List Message} {buffer : Buffer} {frames : UInt32}

/-- What telling comes to: all messages are told, which leaves one host, or the buffer is too short for
them, which leaves another one. -/
def Tells (h : Host σ) (frames : UInt32) (messages : List Message) (buffer : Buffer) (done : Host σ)
    (result : Except WriteFailure Nat × Buffer × Host σ) : Prop :=
  (toldSize messages ≤ buffer.length → ∃ written, result = (.ok (toldSize messages), written, done) ∧
    Told h.schema frames messages buffer written) ∧
  (buffer.length < toldSize messages → ∃ written, result = (.error .overflow, written, h))

/-- The host that has nothing more to tell. -/
def silent (h : Host σ) : Host σ :=
  h.updateEngine fun e => { e with diagnostics := e.diagnostics.afterSending }

section Tell

variable (hs : h.schema.vocabulary.Distinct) (hkeys : h.schema.vocabulary.Keyed)

include hs hkeys

theorem tells_of_writes {done : Host σ} {result : Except WriteFailure Nat × Buffer × Host σ}
    (htexts : ∀ m ∈ messages, '\x00' ∉ m.text.toList)
    (hresult : result =
      match writeControl frames messages (Writer.start h.schema.vocabulary buffer) with
      | .ok size w => (.ok size, w.buffer, done)
      | .error cause w => (.error cause, w.buffer, h)) :
    h.Tells frames messages buffer done result := by
  have happends := appends_control h.schema.vocabulary buffer frames htexts
  rw [Writer.Appends, Writer.room_start, length_control _ _ htexts] at happends
  constructor
  · intro hfit
    rw [happends.1 hfit] at hresult
    exact ⟨_, hresult, told_control hs hkeys frames htexts buffer⟩
  · intro hshort
    obtain ⟨w, herror⟩ := happends.2 hshort
    rw [herror] at hresult
    exact ⟨_, hresult⟩

theorem tell_free (hidle : h.engine.holder = none)
    (htexts : ∀ m ∈ pendingMessages h.engine.value, '\x00' ∉ m.text.toList) :
    h.Tells frames (pendingMessages h.engine.value) buffer h.silent (h.tell buffer frames) := by
  refine tells_of_writes hs hkeys htexts ?_
  -- What the gate was taken for is done when it is left.
  let held : Host σ := { h with engine := ⟨some .audio, h.engine.value⟩ }
  have hkept : held.leave = h := by
    rw [leave, Gate.leave, ← hidle]
  have hsilent : held.silent.leave = h.silent := by
    show _ = { h with engine := ⟨h.engine.holder, _⟩ }
    rw [hidle]
    rfl
  rewrite [tell, Gate.tryEnter, hidle]
  simp only
  cases writeControl frames (pendingMessages h.engine.value)
    (Writer.start h.schema.vocabulary buffer) with
  | ok size w => exact congrArg (fun after => (Except.ok size, w.buffer, after)) hsilent
  | error cause w => exact congrArg (fun after => (Except.error cause, w.buffer, after)) hkept

theorem tell_held {side : Side} (hheld : h.engine.holder = some side) :
    h.Tells frames [] buffer h (h.tell buffer frames) := by
  refine tells_of_writes hs hkeys (fun m hm => absurd hm List.not_mem_nil) ?_
  rewrite [tell, Gate.tryEnter, hheld]
  rfl

end Tell

/-- Nothing that there is to tell is told twice or gets lost, after any operations on a host: all of it is
told, and then nothing is left to tell, or the buffer is too short, and then all of it is left. While the
worker holds the gate nothing is told, and nothing changes. -/
theorem tell_once {language : Language σ} {supply : Supply} {settings : Settings} {first : Host σ}
    {ops : List Operation} {reports : List Report}
    (hcreate : create supply language settings = .ok first)
    (hrun : first.performAll language ops = .ok (h, reports))
    (htexts : ∀ m ∈ pendingMessages h.engine.value, '\x00' ∉ m.text.toList) (buffer : Buffer)
    (frames : UInt32) :
    h.Tells frames (pendingMessages h.engine.value) buffer h.silent (h.tell buffer frames) ∧
      (∀ more later,
        h.silent.Tells later [] more h.silent (h.silent.tell more later)) ∧
      h.hold.Tells frames [] buffer h.hold (h.hold.tell buffer frames) ∧ h.hold.leave = h := by
  have hnew := created hcreate
  obtain ⟨hidle, -⟩ := performAll_switched hnew.idle hrun
  have hschema : h.schema = Schema.ofVocabulary (Vocabulary.ofRegistry .empty).1 :=
    (schema_performAll hnew.idle hrun).trans hnew.schema_eq
  have hs : h.schema.vocabulary.Distinct := by
    rw [hschema]
    exact distinct_ofRegistry
  have hkeys : h.schema.vocabulary.Keyed := by
    rw [hschema]
    exact keyed_ofRegistry
  have hgate : h.engine = ⟨none, h.engine.value⟩ := by
    rw [← hidle]
  have hheld : h.hold.engine.holder = some .worker := by
    rw [hold, Gate.tryEnter, hidle]
    rfl
  refine ⟨tell_free hs hkeys hidle htexts, fun more later => ?_,
    tell_held (h := h.hold) hs hkeys hheld, ?_⟩
  · exact tell_free (h := h.silent) hs hkeys hidle fun m hm => absurd hm List.not_mem_nil
  · rw [leave, hold, Gate.tryEnter, hidle]
    show { h with engine := ⟨none, h.engine.value⟩ } = h
    rw [← hgate]

/-- The source, an error and a line of trace are told in 168 bytes, and not in fewer. -/
theorem tell_once_failing :
    let source := "trace here\nfail"
    ∃ first h reports written, create .ample Command.language (scripted source) = .ok first ∧
      first.performAll Command.language [.block (plainCall false)] = .ok (h, reports) ∧
      h.tell (.blank 200) 16 = (.ok 168, written, h.silent) ∧
      Told h.schema 16 [.code source, .error "script failed", .trace "here"] (.blank 200) written ∧
      ∃ part, h.tell (.blank 167) 16 = (.error .overflow, part, h) := by
  intro source
  have hcheck : ((create .ample Command.language (scripted source)).toOption.bind fun first =>
      (first.performAll Command.language [.block (plainCall false)]).toOption.map fun x =>
        pendingMessages x.1.engine.value)
      = some [.code source, .error "script failed", .trace "here"] := by
    decide +kernel
  simp only [Option.bind_eq_some_iff, Option.map_eq_some_iff, toOption_eq_some, Prod.exists]
    at hcheck
  obtain ⟨first, hcreate, h, reports, hrun, hpending⟩ := hcheck
  have htexts : ∀ m ∈ pendingMessages h.engine.value, '\x00' ∉ m.text.toList := by
    rw [hpending]
    decide
  have hsize : toldSize (pendingMessages h.engine.value) = 168 := by
    rw [hpending]
    decide
  obtain ⟨⟨hfit, -⟩, -⟩ := tell_once hcreate hrun htexts (.blank 200) 16
  obtain ⟨⟨-, hshort⟩, -⟩ := tell_once hcreate hrun htexts (.blank 167) 16
  rw [hsize] at hfit hshort
  obtain ⟨written, htell, htold⟩ := hfit (by decide)
  rw [hpending] at htold
  exact ⟨first, h, reports, written, hcreate, hrun, htell, htold, hshort (by decide)⟩

theorem create_remark {n : Nat} (htwo : 2 ≤ n) :
    ∃ h, create .ample Command.language (scripted (remark n)) = .ok h ∧
      pendingMessages h.engine.value = [.code (remark n)] := by
  obtain ⟨heap, hheap⟩ : ∃ heap, Heap.create .ample (scripted (remark n)).regionSize
      (scripted (remark n)).maxRegions = .ok heap := ⟨_, rfl⟩
  have hvalid : (scripted (remark n)).validate = .ok () :=
    (rfl : _ = Settings.standard.validate).trans (by decide)
  have hcode : (scripted (remark n)).code = some (remark n) := rfl
  have hcompile : Command.language.compile (remark n) heap
      = .ok { steps := [], reserved := [], counter := 0 } heap := compile_remark htwo heap
  simp only [create, hvalid, hheap, hcode, hcompile, bind, Except.bind, Engine.install, pure,
    Except.pure]
  exact ⟨_, rfl, rfl⟩

/-- A line that ends in a carriage return is told without it. A source with which the messages take
2 ^ 32 bytes is told, and not read back. -/
theorem untold_messages :
    (let source := "\x7b\"run\": [[\"trace\", \"a\\r\"]]\x7d"
      ∃ first h reports written a,
        create .ample (CallScripts.language .ample) (scripted source) = .ok first ∧
        first.performAll (CallScripts.language .ample) [.block (plainCall false)]
          = .ok (h, reports) ∧
        h.engine.value.diagnostics.trace.text = "a\r\n" ∧
        h.tell (.blank 200) 16 = (.ok 128, written, h.silent) ∧ written.atom? = some a ∧
        (a.children h.schema).map (fun x => Message.ofAtom? h.schema x.2)
          = [some (.code source), some (.trace "a")]) ∧
    ∃ h written a, create .ample Command.language (scripted (remark (2 ^ 32 - 41))) = .ok h ∧
      pendingMessages h.engine.value = [.code (remark (2 ^ 32 - 41))] ∧
      h.tell (.blank (2 ^ 33)) 16 = (.ok (2 ^ 32 + 8), written, h.silent) ∧
      written.atom? = some a ∧ a.children h.schema = [] := by
  constructor
  · intro source
    have hcheck : ((create .ample (CallScripts.language .ample) (scripted source)).toOption.bind
        fun first => (first.performAll (CallScripts.language .ample)
          [.block (plainCall false)]).toOption.map fun x =>
            (x.1.engine.value.diagnostics.trace.text, pendingMessages x.1.engine.value,
              x.1.engine.holder))
        = some ("a\r\n", [.code source, .trace "a"], none) := by
      decide +kernel
    simp only [Option.bind_eq_some_iff, Option.map_eq_some_iff, toOption_eq_some, Prod.exists,
      Prod.mk.injEq] at hcheck
    obtain ⟨first, hcreate, h, reports, hrun, htrace, hpending, hidle⟩ := hcheck
    have hnew := created hcreate
    have hschema := (schema_performAll hnew.idle hrun).trans hnew.schema_eq
    have hsize : toldSize (pendingMessages h.engine.value) = 128 := by
      rw [hpending]
      decide
    obtain ⟨hfit, -⟩ : h.Tells 16 (pendingMessages h.engine.value) (.blank 200) h.silent
        (h.tell (.blank 200) 16) :=
      tell_free (by rw [hschema]; exact distinct_ofRegistry)
        (by rw [hschema]; exact keyed_ofRegistry) hidle (by rw [hpending]; decide)
    rw [hsize] at hfit
    obtain ⟨written, htell, htold⟩ := hfit (by decide)
    obtain ⟨a, hatom, -, -, hread⟩ := htold.reads (by rw [hsize]; decide)
    refine ⟨first, h, reports, written, a, hcreate, hrun, htrace, htell, hatom, ?_⟩
    have hmessages := congrArg (List.map Prod.snd) hread
    rwa [List.map_map, List.map_map, hpending] at hmessages
  · obtain ⟨h, hcreate, hpending⟩ := create_remark (n := 2 ^ 32 - 41) (by decide)
    have hnew := created hcreate
    have htexts : ∀ m ∈ pendingMessages h.engine.value, '\x00' ∉ m.text.toList := by
      intro m hm
      rw [hpending] at hm
      rw [List.mem_singleton.1 hm]
      exact nul_not_mem_remark _
    have hsize : toldSize (pendingMessages h.engine.value) = 2 ^ 32 + 8 := by
      rw [hpending, toldSize, List.map_singleton, List.sum_singleton, Message.room, Message.text,
        length_encode_remark]
      decide
    obtain ⟨hfit, -⟩ : h.Tells 16 (pendingMessages h.engine.value) (.blank (2 ^ 33)) h.silent
        (h.tell (.blank (2 ^ 33)) 16) :=
      tell_free (by rw [hnew.schema_eq]; exact distinct_ofRegistry)
        (by rw [hnew.schema_eq]; exact keyed_ofRegistry) hnew.idle htexts
    rw [hsize] at hfit
    obtain ⟨written, htell, htold⟩ := hfit (by decide : 2 ^ 32 + 8 ≤ 2 ^ 33)
    obtain ⟨a, hatom, hnone⟩ := htold.wrapped htexts (hsize.trans (Nat.add_comm _ _))
    exact ⟨h, written, a, hcreate, hpending, htell, hatom, hnone⟩

end Host

end BlockHost
