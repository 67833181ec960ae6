import BlockHost.Proofs.AccessPaths
import BlockHost.Proofs.Registries
import BlockHost.Proofs.Telling

/-!
# Control messages, read and written

Anybody may send an object that says it is a message, with any properties in it, as often as they like
and cut off anywhere. It is a message when one of the properties that are found has a key of messages
and a text, and it is the first such property that counts (`Message.ofAtom?_eq_some_iff`). Properties
with other keys do not matter, nor do numbers under the right ones.

What the host writes has exactly one property, and it is read as the message that was written. Four calls
write it, but they fit together or not at all: the whole takes as much room as one encoded object. An
object that cannot declare its size in one word is written all the same (`Message.write_wrapped`).
-/

namespace BlockHost

/-! ## Texts -/

/-- An atom is a string, a path or a URI, or a literal with two words in front of its text. The text ends
at the first NUL. -/
def Atom.HasText (v : Vocabulary) (a : Atom) (text : String) : Prop :=
  ((a.type = v.id .string ∨ a.type = v.id .path ∨ a.type = v.id .uri) ∧
      text = Utf8.untilNul a.body) ∨
    (a.type = v.id .literal ∧ literalHeaderSize ≤ a.body.length ∧
      text = Utf8.untilNul (a.body.drop literalHeaderSize))

section Texts

variable {s : Schema} {a : Atom} {text : String}

theorem Atom.text?_string (hkind : s.kindOf a.type = .string) :
    a.text? s = some (Utf8.untilNul a.body) := by
  rw [text?, value?, hkind]
  rfl

theorem Atom.text?_literal (hkind : s.kindOf a.type = .literal) :
    a.text? s = if literalHeaderSize ≤ a.body.length
      then some (Utf8.untilNul (a.body.drop literalHeaderSize)) else none := by
  rw [text?, value?, hkind]
  simp only [Bytes.word32At?_eq]
  unfold literalHeaderSize
  by_cases hlength : 8 ≤ a.body.length
  · rw [if_pos hlength, if_pos (by omega), if_pos hlength]
    rfl
  · rw [if_neg hlength, if_neg (show ¬ 4 + 4 ≤ a.body.length from hlength)]
    cases (if 0 + 4 ≤ a.body.length then _ else _) <;> rfl

theorem Atom.text?_other (hstring : s.kindOf a.type ≠ .string) (hliteral : s.kindOf a.type ≠ .literal) :
    a.text? s = none := by
  rw [text?, Option.bind_eq_none_iff]
  intro value hvalue
  rw [value?] at hvalue
  cases hkind : s.kindOf a.type with
  | string => exact absurd hkind hstring
  | literal => exact absurd hkind hliteral
  | tuple => simp [hkind] at hvalue
  | object => simp [hkind] at hvalue
  | vector => simp [hkind] at hvalue
  | sequence => simp [hkind] at hvalue
  | chunk =>
      simp only [hkind, Option.some.injEq] at hvalue
      rw [← hvalue]
      rfl
  | _ =>
      simp only [hkind, Option.map_eq_some_iff] at hvalue
      obtain ⟨_, -, rfl⟩ := hvalue
      rfl

/-- These are the atoms that have a text. -/
theorem Atom.text?_eq_some_iff (hs : s.vocabulary.Distinct) :
    a.text? s = some text ↔ a.HasText s.vocabulary text := by
  have hterm : ∀ {t : Term} {kind : Kind}, (t, kind) ∈ Kind.ofTerm → a.type = s.vocabulary.id t →
      s.kindOf a.type = kind := by
    intro t kind hmem htype
    rw [htype]
    exact Schema.kindOf_id hs hmem
  have hstrings : s.kindOf a.type = .string ↔ a.type = s.vocabulary.id .string ∨
      a.type = s.vocabulary.id .path ∨ a.type = s.vocabulary.id .uri := by
    constructor
    · intro hkind
      obtain ⟨t, hmem, htype⟩ := Schema.exists_of_kindOf hs hkind (by decide)
      have ht : t = .string ∨ t = .path ∨ t = .uri := by simpa [Kind.ofTerm] using hmem
      rcases ht with rfl | rfl | rfl
      · exact .inl htype
      · exact .inr (.inl htype)
      · exact .inr (.inr htype)
    · rintro (htype | htype | htype)
      · exact hterm (by decide) htype
      · exact hterm (by decide) htype
      · exact hterm (by decide) htype
  have hliterals : s.kindOf a.type = .literal ↔ a.type = s.vocabulary.id .literal := by
    constructor
    · intro hkind
      obtain ⟨t, hmem, htype⟩ := Schema.exists_of_kindOf hs hkind (by decide)
      have ht : t = .literal := by simpa [Kind.ofTerm] using hmem
      exact ht ▸ htype
    · intro htype
      exact hterm (by decide) htype
  rw [HasText, ← hstrings, ← hliterals]
  by_cases hstring : s.kindOf a.type = .string
  · simp [text?_string hstring, hstring, eq_comm]
  · by_cases hliteral : s.kindOf a.type = .literal
    · simp [text?_literal hliteral, hliteral, eq_comm]
    · simp [text?_other hstring hliteral, hstring, hliteral]

end Texts

/-! ## Reading -/

/-- An item is a property with the key of a message and its text. -/
def Message.InItem (v : Vocabulary) (m : Message) (item : Key × Atom) : Prop :=
  (∃ context, item.1 = .property (v.id m.term) context) ∧ item.2.HasText v m.text

/-- A message is in an item, and none is in an item before that. -/
def Message.FirstIn (v : Vocabulary) (m : Message) (items : List (Key × Atom)) : Prop :=
  ∃ (i : Nat) (item : Key × Atom), items[i]? = some item ∧ m.InItem v item ∧
    ∀ (j : Nat) (earlier : Key × Atom), j < i → items[j]? = some earlier →
      ∀ other : Message, ¬ other.InItem v earlier

namespace Message

variable {s : Schema}

theorem ofProperty?_eq_some_iff {v : Vocabulary} (hkeys : v.Keyed) {key : UInt32} {text : String}
    {m : Message} : ofProperty? v key text = some m ↔ key = v.id m.term ∧ text = m.text := by
  constructor
  · intro h
    unfold ofProperty? at h
    split at h
    · next hkey =>
        cases h
        exact ⟨hkey, rfl⟩
    · split at h
      · next hkey =>
          cases h
          exact ⟨hkey, rfl⟩
      · split at h
        · next hkey =>
            cases h
            exact ⟨hkey, rfl⟩
        · cases h
  · rintro ⟨rfl, rfl⟩
    exact ofProperty?_term hkeys m

/-- What an item is read as. -/
def ofItem? (s : Schema) : Key × Atom → Option Message
  | (.property key _, child) => (child.text? s).bind (ofProperty? s.vocabulary key)
  | _ => none

theorem ofItem?_eq_some_iff (hs : s.vocabulary.Distinct) (hkeys : s.vocabulary.Keyed)
    {item : Key × Atom} {m : Message} : ofItem? s item = some m ↔ m.InItem s.vocabulary item := by
  obtain ⟨key, child⟩ := item
  cases key with
  | property key context =>
      rw [ofItem?, Option.bind_eq_some_iff, InItem]
      constructor
      · rintro ⟨text, htext, hproperty⟩
        obtain ⟨rfl, rfl⟩ := (ofProperty?_eq_some_iff hkeys).1 hproperty
        exact ⟨⟨context, rfl⟩, (Atom.text?_eq_some_iff hs).1 htext⟩
      · rintro ⟨⟨context', heq⟩, htext⟩
        cases heq
        exact ⟨m.text, (Atom.text?_eq_some_iff hs).2 htext, ofProperty?_term hkeys m⟩
  | _ => simp [ofItem?, InItem]

theorem isObject_iff {v : Vocabulary} {type : UInt32} : v.isObject type = true ↔
    type = v.id .object ∨ type = v.id .resource ∨ type = v.id .blank := by
  simp [Vocabulary.isObject, or_assoc]

theorem kindOf_of_isObject (hs : s.vocabulary.Distinct) {type : UInt32}
    (h : s.vocabulary.isObject type = true) : s.kindOf type = .object := by
  rcases isObject_iff.1 h with rfl | rfl | rfl
  · exact Schema.kindOf_id hs (by decide)
  · exact Schema.kindOf_id hs (by decide)
  · exact Schema.kindOf_id hs (by decide)

/-- An atom is read as the first message in its items, when it is an object of the type of messages. -/
theorem ofAtom?_eq_some_iff (hs : s.vocabulary.Distinct) (hkeys : s.vocabulary.Keyed) {a : Atom}
    {m : Message} : ofAtom? s a = some m ↔
      s.vocabulary.isObject a.type = true ∧ a.body.word32At? 4 = some (s.id .message) ∧
        m.FirstIn s.vocabulary (a.children s) := by
  have hsearch : (a.children s).findSome? (ofItem? s) = some m ↔
      m.FirstIn s.vocabulary (a.children s) := by
    rw [findSome?_eq_some_iff_first, FirstIn]
    simp only [ofItem?_eq_some_iff hs hkeys, Option.eq_none_iff_forall_ne_some, ne_eq]
  have hofAtom : ofAtom? s a =
      if s.vocabulary.isObject a.type && a.objectType? s == some (s.id .message) then
        (a.children s).findSome? (ofItem? s) else none := rfl
  rw [hofAtom]
  cases hobject : s.vocabulary.isObject a.type with
  | false => simp
  | true =>
      have htype : a.objectType? s = a.body.word32At? 4 := by
        rw [Atom.objectType?, if_pos (kindOf_of_isObject hs hobject)]
      by_cases hmessage : a.body.word32At? 4 = some (s.id .message)
      · simp [htype, hmessage, hsearch]
      · simp [htype, hmessage]

/-! ## Writing -/

end Message

/-- Messages in any vocabulary that a registry gives, whatever had been interned before, as long as all
numbers fit in 32 bits.

Any bytes: the atom at their start is read as a message exactly when it is an object of the type of
messages, and among the items of its cursor the first one with a key and a text of a message has that
very key and text. Any message: on the grid, while there is room, with fewer than eight frames open and
outside of a vector, it is written exactly when 24 bytes and its padded string fit, and nothing but a
lack of room is ever reported. What was written is read as that message, as long as the size of the
object can be said in 32 bits. -/
theorem message_codec (r : Registry) {v : Vocabulary} (hv : v = (Vocabulary.ofRegistry r).1)
    (hsize : (Vocabulary.ofRegistry r).2.size < 2 ^ 32) :
    let s := Schema.ofVocabulary v
    (∀ bs a, Atom.parse bs = some a → ∃ items : List (Key × Atom),
      (∀ n, (Cursor.start s a).answers s a n = (List.range n).map fun i => items[i]?) ∧
      ∀ m, Message.ofAtom? s a = some m ↔
        (a.type = v.id .object ∨ a.type = v.id .resource ∨ a.type = v.id .blank) ∧
          a.body.word32At? 4 = some (v.id .message) ∧ m.FirstIn v items) ∧
    ∀ (m : Message) (w : Writer), '\x00' ∉ m.text.toList → w.vocabulary = v → w.failed = false →
      w.offset % 8 = 0 → w.depth < 8 → w.inVector = false →
      ((∃ after, m.write w = .ok () after) ↔
        24 + padded (8 + ((Utf8.encode m.text).length + 1)) ≤ w.capacity - w.offset) ∧
      (∀ cause after, m.write w = .error cause after → cause = .overflow) ∧
      ∀ after, m.write w = .ok () after →
        16 + padded (8 + ((Utf8.encode m.text).length + 1)) < 2 ^ 32 → ∃ a : Atom,
          after.written = w.written ++ Atom.encode a.type a.body ∧
            Atom.parse (after.written.drop w.offset) = some a ∧ Message.ofAtom? s a = some m := by
  intro s
  have hinjective : Function.Injective v.id := by
    rw [hv]
    exact Vocabulary.id_injective hsize
  have hs : s.vocabulary.Distinct := Vocabulary.distinct_of_injective hinjective
  have hkeys : s.vocabulary.Keyed := by
    have hterms : [Term.code, .error, .trace].Nodup := by decide
    exact hterms.map hinjective
  refine ⟨fun bs a _ => ⟨a.children s, fun n => Cursor.answers_start s a n, fun m => ?_⟩, ?_⟩
  · rw [Message.ofAtom?_eq_some_iff hs hkeys, Message.isObject_iff]
    exact Iff.rfl
  · rintro m w htext rfl hw halign hdepth hvector
    have happends := Message.appends_write htext hw halign hdepth hvector
    have hroom : w.capacity - w.offset = w.room := Nat.add_sub_cancel_left _ _
    refine ⟨?_, fun cause after herror => happends.cause_eq herror, fun after hok hbody => ?_⟩
    · have hok := happends.ok_iff
      rw [Message.length_bytes_tree w.vocabulary htext] at hok
      rw [hroom]
      constructor
      · rintro ⟨after, hwrite⟩
        exact hok.1 ⟨(), after, hwrite⟩
      · intro hfit
        obtain ⟨_, after, hwrite⟩ := hok.2 hfit
        exact ⟨after, hwrite⟩
    · obtain ⟨-, rfl⟩ := happends.eq_of_ok hok
      have hsmall : (m.atom w.vocabulary).body.length < 2 ^ 32 := by
        rw [Message.atom, Atom.body_ofBody, Message.length_body_tree w.vocabulary htext]
        exact hbody
      refine ⟨m.atom w.vocabulary, Writer.written_append _ _, ?_, ?_⟩
      · have hparse := Atom.parse_encode ((m.tree w.vocabulary).type w.vocabulary) _ [] hsmall
        rw [List.append_nil] at hparse
        rw [Writer.written_append, List.drop_left' (Writer.length_written w)]
        exact hparse
      · exact Message.ofAtom?_atom hs hkeys htext hsmall

/-- A line of two letters takes forty bytes, and not one less. Its key and its text are in the only item. -/
theorem message_codec_trace :
    let v := (Vocabulary.ofRegistry .empty).1
    let s := Schema.ofVocabulary v
    let m := Message.trace "hi"
    (¬ ∃ after, m.write (Writer.start v (.blank 39)) = .ok () after) ∧
      ∃ after a items, m.write (Writer.start v (.blank 40)) = .ok () after ∧
        Atom.parse after.written = some a ∧ Message.ofAtom? s a = some m ∧
          (Cursor.start s a).answers s a 1 = [items[0]?] ∧ m.FirstIn v items := by
  intro v s m
  have hsize : (Vocabulary.ofRegistry .empty).2.size < 2 ^ 32 := by decide
  obtain ⟨hreads, hwrites⟩ := message_codec .empty (v := v) rfl hsize
  have htext : '\x00' ∉ m.text.toList := by decide
  obtain ⟨hshort, -⟩ := hwrites m (Writer.start v (.blank 39)) htext rfl rfl rfl (by decide) rfl
  obtain ⟨hfits, -, hwritten⟩ :=
    hwrites m (Writer.start v (.blank 40)) htext rfl rfl rfl (by decide) rfl
  obtain ⟨after, hafter⟩ := hfits.2 (by decide)
  obtain ⟨a, -, hparse, hread⟩ := hwritten after hafter (by decide)
  obtain ⟨items, hanswers, hmessage⟩ := hreads _ a hparse
  exact ⟨fun h => absurd (hshort.1 h) (by decide), after, a, items, hafter, hparse, hread, hanswers 1,
    ((hmessage m).1 hread).2.2⟩

namespace Message

/-- An object without its body is no message. -/
theorem ofAtom?_ofBody_nil (s : Schema) (type : UInt32) : ofAtom? s (.ofBody type []) = none := by
  have hnone : (Atom.ofBody type []).objectType? s = none := by
    rw [Atom.objectType?]
    split <;> rfl
  rw [ofAtom?, hnone]
  exact if_neg (by rw [Bool.and_eq_true]; exact fun h => Bool.false_ne_true h.2)

/-- A message whose object takes 2 ^ 32 bytes is written when there is room, and not read back. -/
theorem write_wrapped {m : Message} (htext : '\x00' ∉ m.text.toList)
    (hlength : 16 + padded (8 + ((Utf8.encode m.text).length + 1)) = 2 ^ 32) (s : Schema)
    (v : Vocabulary) {buffer : Buffer} (hroom : 8 + 2 ^ 32 ≤ buffer.length) :
    ∃ after a, m.write (Writer.start v buffer) = .ok () after ∧
      Atom.parse after.written = some a ∧ ofAtom? s a = none := by
  have hbody : ((m.tree v).body v).length = 2 ^ 32 := (length_body_tree v htext).trans hlength
  have hbytes : ((m.tree v).bytes v).length = 8 + 2 ^ 32 := by
    rw [← hlength]
    exact (length_bytes_tree v htext).trans (Nat.add_assoc 8 16 _)
  have happends := appends_write htext (w := Writer.start v buffer) rfl
    (by rw [Writer.offset_start]) (Nat.zero_lt_succ 7) rfl
  have hwrite := happends.1 ((Nat.le_of_eq hbytes).trans (by rwa [Writer.room_start]))
  refine ⟨_, .ofBody ((m.tree v).type v) [], hwrite, ?_, ofAtom?_ofBody_nil s _⟩
  have hparse := Atom.parse_encode_wrapped ((m.tree v).type v) hbody []
  rw [List.append_nil] at hparse
  rw [Writer.written_append]
  exact hparse

end Message

/-- An object of the type of messages, with one property: a string of these bytes, as a source. -/
def sourceObject (v : Vocabulary) (text : Bytes) : Atom :=
  .ofBody (v.id .object) (Bytes.word32 0 ++ Bytes.word32 (v.id .message)
    ++ Bytes.word32 (v.id .code) ++ Bytes.word32 0 ++ Atom.encode (v.id .string) text)

/-- Of a property with a NUL in its text only the text in front of the NUL is a message, and of one that
is no UTF-8 only what is. An object that takes 2 ^ 32 bytes is written, and not read as the message that
it is. -/
theorem messages_cut :
    let v := (Vocabulary.ofRegistry .empty).1
    let s := Schema.ofVocabulary v
    let cut := Utf8.encode "ab\x00cd\x00"
    let broken : Bytes := [0x61, 0xFF, 0x62, 0]
    ((sourceObject v cut).children s = [(.property (v.id .code) 0, .ofBody (v.id .string) cut)] ∧
      Message.ofAtom? s (sourceObject v cut) = some (.code "ab")) ∧
    ((sourceObject v broken).children s
        = [(.property (v.id .code) 0, .ofBody (v.id .string) broken)] ∧
      Message.ofAtom? s (sourceObject v broken) = some (.code "a")) ∧
    ∃ after a,
      (Message.trace (remark (2 ^ 32 - 25))).write (Writer.start v (.blank (2 ^ 33)))
          = .ok () after ∧
        Atom.parse after.written = some a ∧ Message.ofAtom? s a = none := by
  intro v s cut broken
  refine ⟨?_, ?_, ?_⟩
  · decide +kernel
  · decide +kernel
  · have htext : '\x00' ∉ (Message.trace (remark (2 ^ 32 - 25))).text.toList :=
      nul_not_mem_remark _
    have hlength : 16 + padded (8 + ((Utf8.encode
        (Message.trace (remark (2 ^ 32 - 25))).text).length + 1)) = 2 ^ 32 := by
      rw [Message.text, length_encode_remark]
      decide
    exact Message.write_wrapped htext hlength s v (by decide : 8 + 2 ^ 32 ≤ 2 ^ 33)

end BlockHost
