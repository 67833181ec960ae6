import BlockHost.Proofs.ReadingBack
import BlockHost.Proofs.Trees

/-!
# Reading trees back

What a tree was written as reads as that tree. An atom shows a tree (`Tree.Shows`) when
everything that can be asked of the atom is answered as the tree says: its type and its size,
the value of a leaf, the id and type of an object, the shape of a vector, and child by child the
keys and what stands under them.

`write_read` joins this with what the calls append: from a writer on the grid a tree is written
exactly when it fits, and then the buffer shows it from there on.
-/

namespace BlockHost

/-! ## Texts -/

namespace Utf8

theorem ne_zero_of_mem_encodeChar {c : Char} (hc : c ≠ '\x00') {b : UInt8}
    (hb : b ∈ String.utf8EncodeChar c) : b ≠ 0 := by
  have hv : c.val.toNat ≠ 0 := by
    intro h0
    refine hc (Char.ext (UInt32.toNat_inj.1 ?_))
    exact h0
  have hbyte : ∀ n : Nat, n % 256 ≠ 0 → UInt8.ofNat n ≠ 0 := by
    intro n hn h0
    have hnat := congrArg UInt8.toNat h0
    rw [UInt8.toNat_ofNat'] at hnat
    exact hn hnat
  rw [String.utf8EncodeChar] at hb
  split at hb
  · rw [List.mem_singleton] at hb
    exact hb ▸ hbyte _ (by omega)
  split at hb
  · simp only [List.mem_cons, List.not_mem_nil, or_false] at hb
    rcases hb with rfl | rfl <;> exact hbyte _ (by omega)
  split at hb
  · simp only [List.mem_cons, List.not_mem_nil, or_false] at hb
    rcases hb with rfl | rfl | rfl <;> exact hbyte _ (by omega)
  · simp only [List.mem_cons, List.not_mem_nil, or_false] at hb
    rcases hb with rfl | rfl | rfl | rfl <;> exact hbyte _ (by omega)

/-- The NUL behind a text without one is where the text ends. -/
theorem untilNul_textBody {text : String} (h : '\x00' ∉ text.toList) :
    untilNul (Writer.textBody text) = text := by
  have hall : ∀ b ∈ encode text, b ≠ 0 := by
    intro b hb
    obtain ⟨c, hc, hbc⟩ := List.mem_flatMap.1 hb
    exact ne_zero_of_mem_encodeChar (fun heq => h (heq ▸ hc)) hbc
  have htake : (Writer.textBody text).takeWhile (· != 0) = encode text := by
    rw [Writer.textBody, List.takeWhile_append_of_pos fun b hb => by simpa using hall b hb]
    simp
  rw [untilNul, htake, decode_encode]

end Utf8

/-! ## Leaves -/

namespace Scalar

/-- The number that is read. -/
def value : Scalar → Value
  | int n => .int n
  | long n => .long n
  | float bits => .float bits
  | double bits => .double bits
  | bool b => .bool b
  | urid id => .urid id

end Scalar

namespace Leaf

/-- What an atom that holds the leaf answers: an atom that was copied is that atom, and any
other has the value that was written. -/
def Shows (s : Schema) : Leaf → Atom → Prop
  | scalar n, a => a.value? s = some n.value
  | string text, a | path text, a | uri text, a => a.value? s = some (.text text)
  | literal text datatype lang, a => a.value? s = some (.literal text datatype lang)
  | chunk bs, a => a.value? s = some (.bytes bs)
  | copy copied, a => a = copied

end Leaf

theorem Bytes.word32At?_word32 (x : UInt32) (rest : Bytes) :
    (Bytes.word32 x ++ rest).word32At? 0 = some x :=
  Bytes.word32At?_append [] rest x

theorem Scalar.value?_body {s : Schema} (hs : s.vocabulary.Distinct) (n : Scalar) :
    (Atom.ofBody (s.id n.term) n.body).value? s = some n.value := by
  have h32 : ∀ x : UInt32, (Bytes.word32 x).word32At? 0 = some x := fun x => by
    simpa using Bytes.word32At?_word32 x []
  have h64 : ∀ x : UInt64, (Bytes.word64 x).word64At? 0 = some x := fun x => by
    simpa using Bytes.word64At?_append [] [] x
  have hlong : ∀ x : Int64, (Bytes.int64 x).int64At? 0 = some x := fun x => by
    simpa using Bytes.int64At?_append [] [] x
  have hkind : ∀ {t : Term} {kind : Kind}, (t, kind) ∈ Kind.ofTerm → s.kindOf (s.id t) = kind :=
    fun ht => s.kindOf_id hs ht
  cases n with
  | int n =>
      simp only [term, body, value, Atom.value?, Atom.type_ofBody, Atom.body_ofBody,
        hkind (show (Term.int, Kind.int) ∈ Kind.ofTerm by decide), h32]
      simp
  | long n =>
      simp only [term, body, value, Atom.value?, Atom.type_ofBody, Atom.body_ofBody,
        hkind (show (Term.long, Kind.long) ∈ Kind.ofTerm by decide), hlong]
      simp
  | float bits =>
      simp only [term, body, value, Atom.value?, Atom.type_ofBody, Atom.body_ofBody,
        hkind (show (Term.float, Kind.float) ∈ Kind.ofTerm by decide), h32]
      simp
  | double bits =>
      simp only [term, body, value, Atom.value?, Atom.type_ofBody, Atom.body_ofBody,
        hkind (show (Term.double, Kind.double) ∈ Kind.ofTerm by decide), h64]
      simp
  | bool b =>
      simp only [term, body, value, Atom.value?, Atom.type_ofBody, Atom.body_ofBody,
        hkind (show (Term.bool, Kind.bool) ∈ Kind.ofTerm by decide), h32]
      cases b <;> rfl
  | urid id =>
      simp only [term, body, value, Atom.value?, Atom.type_ofBody, Atom.body_ofBody,
        hkind (show (Term.urid, Kind.urid) ∈ Kind.ofTerm by decide), h32]
      simp

theorem Leaf.shows {s : Schema} (hs : s.vocabulary.Distinct) {l : Leaf} (hl : l.Valid) :
    l.Shows s (Atom.ofBody (l.type s.vocabulary) l.body) := by
  have hkind : ∀ {t : Term} {kind : Kind}, (t, kind) ∈ Kind.ofTerm →
      s.kindOf (s.vocabulary.id t) = kind := fun ht => s.kindOf_id hs ht
  cases l with
  | scalar n => exact n.value?_body hs
  | string text =>
      simp only [Shows, type, body, Atom.value?, Atom.type_ofBody, Atom.body_ofBody,
        hkind (show (Term.string, Kind.string) ∈ Kind.ofTerm by decide), Utf8.untilNul_textBody hl]
  | path text =>
      simp only [Shows, type, body, Atom.value?, Atom.type_ofBody, Atom.body_ofBody,
        hkind (show (Term.path, Kind.string) ∈ Kind.ofTerm by decide), Utf8.untilNul_textBody hl]
  | uri text =>
      simp only [Shows, type, body, Atom.value?, Atom.type_ofBody, Atom.body_ofBody,
        hkind (show (Term.uri, Kind.string) ∈ Kind.ofTerm by decide), Utf8.untilNul_textBody hl]
  | literal text datatype lang =>
      have hdatatype := Bytes.word32At?_word32 datatype (Bytes.word32 lang ++ Writer.textBody text)
      have hlang := Bytes.word32At?_append (Bytes.word32 datatype) (Writer.textBody text) lang
      have hdrop : (Bytes.word32 datatype ++ Bytes.word32 lang ++ Writer.textBody text).drop
          Atom.literalHeaderSize = Writer.textBody text :=
        List.drop_left' (by simp [Atom.literalHeaderSize])
      rw [← List.append_assoc] at hdatatype
      rw [Bytes.length_word32] at hlang
      simp only [Shows, type, body, Atom.value?, Atom.type_ofBody, Atom.body_ofBody,
        hkind (show (Term.literal, Kind.literal) ∈ Kind.ofTerm by decide), hdatatype, hlang, hdrop,
        Utf8.untilNul_textBody hl]
      rfl
  | chunk bs =>
      simp only [Shows, type, body, Atom.value?, Atom.type_ofBody, Atom.body_ofBody,
        hkind (show (Term.chunk, Kind.chunk) ∈ Kind.ofTerm by decide)]
  | copy a => exact Atom.ofBody_of_whole hl

/-! ## Trees -/

namespace Form

/-- How the children of a composite atom of this form are laid out. -/
def layout : Form → Layout
  | tuple => .tuple
  | object => .object
  | sequence => .sequence

/-- The key that is read for a mark. -/
def key : (f : Form) → (position : Nat) → f.Mark → Key
  | tuple, position, _ => .index position
  | object, _, (key, context) => .property key context
  | sequence, _, t => .time t

theorem marks (f : Form) (position : Nat) (mark : f.Mark) :
    f.layout.Marks position (f.key position mark) (f.markBytes mark) := by
  cases f with
  | tuple => exact Layout.marks_tuple position
  | object => exact Layout.marks_object position mark.1 mark.2
  | sequence => exact Layout.marks_sequence position mark

end Form

/-- What is read one behind the other in a vector of the elements. -/
def Leaf.ShowAll (s : Schema) (type size : UInt32) (elements : List Leaf)
    (found : List (Key × Atom)) : Prop :=
  found.length = elements.length ∧ ∀ (i : Nat) (l : Leaf), elements[i]? = some l →
    ∃ element : Atom, found[i]? = some (.index i, element) ∧ element.type = type ∧
      element.size = size ∧ l.Shows s element

mutual

/-- What an atom that holds the tree answers. -/
def Tree.Shows (s : Schema) (t : Tree) (a : Atom) : Prop :=
  a.type = t.type s.vocabulary ∧ a.size.toNat = t.bodySize ∧
    match t with
    | .leaf l => l.Shows s a
    | .tuple children => children.Show s 0 (a.children s)
    | .object id type properties =>
        a.objectId? s = some id ∧ a.objectType? s = some type ∧ properties.Show s 0 (a.children s)
    | .vector type size elements =>
        a.shape? s = some ⟨type, size.toNat⟩ ∧ Leaf.ShowAll s type size elements (a.children s)
    | .sequence events => events.Show s 0 (a.children s)

/-- What is read one behind the other, from a position on. -/
def Branches.Show (s : Schema) {f : Form} (position : Nat) : Branches f → List (Key × Atom) → Prop
  | .nil, found => found = []
  | .cons mark child rest, found =>
      ∃ a others, found = (f.key position mark, a) :: others ∧ child.Shows s a ∧
        rest.Show s (position + 1) others

end

theorem Leaf.showAll_cut {s : Schema} (hs : s.vocabulary.Distinct) {type size : UInt32}
    {elements : List Leaf} (hpos : 0 < size.toNat)
    (h : ∀ l ∈ elements, l.Valid ∧ l.type s.vocabulary = type ∧ l.body.length = size.toNat) :
    Leaf.ShowAll s type size elements
      ((Shape.mk type size.toNat).cut 0 (elements.map Leaf.body).flatten) := by
  have hbodies : ∀ body ∈ elements.map Leaf.body,
      body.length = (Shape.mk type size.toNat).size := by
    intro body hbody
    obtain ⟨l, hl, rfl⟩ := List.mem_map.1 hbody
    exact (h l hl).2.2
  have hcut := @Shape.cut_flatten ⟨type, size.toNat⟩ hpos _ hbodies 0
  rw [hcut]
  refine ⟨by simp, fun i l hl => ?_⟩
  obtain ⟨hvalid, htype, hsize⟩ := h l (List.mem_of_getElem? hl)
  refine ⟨Atom.ofBody type l.body, ?_, rfl, ?_, ?_⟩
  · rw [List.getElem?_map, List.getElem?_zipIdx, List.getElem?_map, hl]
    simp
  · rw [Atom.ofBody, hsize, UInt32.ofNat_toNat]
  · rw [← htype]
    exact Leaf.shows hs hvalid

mutual

theorem Tree.shows {s : Schema} (hs : s.vocabulary.Distinct) : ∀ t : Tree, t.Valid s.vocabulary →
    t.bodySize < 2 ^ 32 →
    t.Shows s (Atom.ofBody (t.type s.vocabulary) (t.body s.vocabulary))
  | .leaf l, ht, hsize => by
      have hbody : l.body.length < 2 ^ 32 := hsize
      exact ⟨rfl, Atom.toNat_size_ofBody hbody _, Leaf.shows hs ht⟩
  | .tuple children, ht, hsize => by
      have hlength := Tree.length_body _ ht
      have hkind : s.kindOf (s.vocabulary.id .tuple) = .tuple := s.kindOf_id hs (by decide)
      refine ⟨rfl, ?_, ?_⟩
      · rw [Atom.toNat_size_ofBody (by omega), hlength]
      · simp only [Atom.children, Tree.type, Tree.body, Atom.type_ofBody, Atom.body_ofBody, hkind]
        exact children.show_parse hs 0 ht hsize
  | .object id type properties, ht, hsize => by
      have hlength := Tree.length_body _ ht
      have hkind : s.kindOf (s.vocabulary.id .object) = .object := s.kindOf_id hs (by decide)
      have hid := Bytes.word32At?_word32 id (Bytes.word32 type ++ properties.bytes s.vocabulary)
      have htype := Bytes.word32At?_append (Bytes.word32 id) (properties.bytes s.vocabulary) type
      have hdrop : (Bytes.word32 id ++ Bytes.word32 type ++ properties.bytes s.vocabulary).drop
          Atom.objectHeaderSize = properties.bytes s.vocabulary :=
        List.drop_left' (by simp [Atom.objectHeaderSize])
      rw [← List.append_assoc] at hid
      rw [Bytes.length_word32] at htype
      refine ⟨rfl, ?_, ?_, ?_, ?_⟩
      · rw [Atom.toNat_size_ofBody (by omega), hlength]
      · simp only [Atom.objectId?, Tree.type, Tree.body, Atom.type_ofBody, Atom.body_ofBody, hkind,
          ↓reduceIte, hid]
      · simp only [Atom.objectType?, Tree.type, Tree.body, Atom.type_ofBody, Atom.body_ofBody,
          hkind, ↓reduceIte, htype]
      · simp only [Atom.children, Tree.type, Tree.body, Atom.type_ofBody, Atom.body_ofBody, hkind,
          hdrop]
        rw [Tree.bodySize] at hsize
        exact properties.show_parse hs 0 ht (by omega)
  | .vector type size elements, ht, hsize => by
      have hlength := Tree.length_body _ ht
      have hkind : s.kindOf (s.vocabulary.id .vector) = .vector := s.kindOf_id hs (by decide)
      have hshape := Shape.parse_append type size (elements.map Leaf.body).flatten
      have hdrop : (Bytes.word32 type ++ Bytes.word32 size
          ++ (elements.map Leaf.body).flatten).drop Shape.headerSize
            = (elements.map Leaf.body).flatten :=
        List.drop_left' (by simp [Shape.headerSize])
      refine ⟨rfl, ?_, ?_, ?_⟩
      · rw [Atom.toNat_size_ofBody (by omega), hlength]
      · simp only [Atom.shape?, Tree.type, Tree.body, Atom.type_ofBody, Atom.body_ofBody, hkind,
          ↓reduceIte, hshape]
      · simp only [Atom.children, Tree.type, Tree.body, Atom.type_ofBody, Atom.body_ofBody, hkind,
          hshape, hdrop]
        exact Leaf.showAll_cut hs ht.1 ht.2
  | .sequence events, ht, hsize => by
      have hlength := Tree.length_body _ ht
      have hkind : s.kindOf (s.vocabulary.id .sequence) = .sequence := s.kindOf_id hs (by decide)
      refine ⟨rfl, ?_, ?_⟩
      · rw [Atom.toNat_size_ofBody (by omega), hlength]
      · simp only [Atom.children, Tree.type, Tree.body, Atom.type_ofBody, Atom.body_ofBody, hkind]
        exact events.show_parse hs 0 ht hsize

theorem Branches.show_parse {s : Schema} (hs : s.vocabulary.Distinct) {f : Form} :
    ∀ (bs : Branches f) {last : Int64} (position : Nat), bs.Valid s.vocabulary last →
      bs.size < 2 ^ 32 →
      bs.Show s position (f.layout.parse position (bs.bytes s.vocabulary))
  | .nil, last, position, hbs, hsize => by
      rw [Branches.Show, Branches.bytes]
      exact Layout.parse_nil _ _
  | .cons mark child rest, last, position, hbs, hsize => by
      obtain ⟨-, hchild, hrest⟩ := hbs
      rw [Branches.size] at hsize
      have hle := le_padded (Atom.headerSize + child.bodySize)
      have hbody : (child.body s.vocabulary).length < 2 ^ 32 := by
        rw [child.length_body hchild]
        omega
      rw [Branches.Show, Branches.bytes, Layout.parse_append (f.marks position mark) _ hbody]
      exact ⟨_, _, rfl, Tree.shows hs child hchild (by omega),
        rest.show_parse hs (position + 1) hrest (by omega)⟩

end

/-- From the grid on, a tree is written exactly when it fits, the offset is on the grid again,
and what the buffer holds between the two is read as the tree. -/
theorem write_read {s : Schema} (hs : s.vocabulary.Distinct) {t : Tree}
    (ht : t.Valid s.vocabulary) (hsize : t.size < 2 ^ 32) {w : Writer}
    (hv : w.vocabulary = s.vocabulary) (hgood : w.failed = false) (haligned : w.offset % 8 = 0)
    (hvector : w.inVector = false) (hdepth : w.depth + t.nesting ≤ Writer.maxDepth) :
    ((∃ w', t.write w = .ok () w') ↔ t.size ≤ w.capacity - w.offset) ∧
      ∀ w', t.write w = .ok () w' →
        w'.offset = w.offset + t.size ∧ w'.offset % 8 = 0 ∧ w'.capacity = w.capacity ∧
          ∃ a, Atom.parseWhole (w'.buffer.bytes.drop w.offset) = some a ∧ t.Shows s a := by
  rw [← hv] at ht hs
  have happends := t.appends hgood haligned hvector hdepth ht
  have hlength := Tree.length_bytes ht
  have hroom : w.room = w.capacity - w.offset := by
    rw [Writer.capacity, Nat.add_sub_cancel_left]
    rfl
  have hbody : (t.body w.vocabulary).length < 2 ^ 32 := by
    have hle := le_padded (Atom.headerSize + t.bodySize)
    rw [Tree.size] at hsize
    rw [t.length_body ht]
    omega
  constructor
  · rw [← hlength, ← hroom, ← happends.ok_iff]
    constructor
    · rintro ⟨w', hrun⟩
      exact ⟨(), w', hrun⟩
    · rintro ⟨_, w', hrun⟩
      exact ⟨w', hrun⟩
  · intro w' hrun
    have hfit := happends.ok_iff.1 ⟨(), w', hrun⟩
    rw [happends.1 hfit] at hrun
    cases hrun
    have hmod := Tree.length_bytes_mod w.vocabulary t
    refine ⟨?_, ?_, ?_, Atom.ofBody (t.type w.vocabulary) (t.body w.vocabulary), ?_, ?_⟩
    · rw [Writer.offset_append, hlength]
    · rw [Writer.offset_append]
      omega
    · have hahead : (w.append (t.bytes w.vocabulary)).ahead.length
          = w.room - (t.bytes w.vocabulary).length := rfl
      rw [Writer.capacity, Writer.capacity, Writer.offset_append, hahead]
      have hsame : w.ahead.length = w.room := rfl
      omega
    · rw [Writer.bytes_buffer, Writer.written_append, List.append_assoc, ← Writer.length_written,
        List.drop_left, Tree.bytes, Atom.parseWhole_encode _ _ _ hbody]
    · rw [hv] at ht ⊢
      exact Tree.shows (hv ▸ hs) t ht (by rw [← t.length_body ht, ← hv]; exact hbody)

/-- A sequence with an object that has a vector and a tuple in it. -/
theorem write_read_nested :
    let v : Vocabulary := ⟨fun t => UInt32.ofNat (Term.all.idxOf t)⟩
    let elements : List Leaf := [.scalar (.float 0x3F800000), .scalar (.float 0x7FC00001)]
    let pair : Branches .tuple :=
      .cons () (.leaf (.string "seven")) (.cons () (.leaf (.chunk [1, 2, 3])) .nil)
    let properties : Branches .object :=
      .cons (40, 0) (.vector (v.id .float) 4 elements) (.cons (41, 5) (.tuple pair) .nil)
    let events : Branches .sequence := .cons (3 : Int64) (.object 7 30 properties)
      (.cons (3 : Int64) (.leaf (.scalar (.long (-1)))) .nil)
    let t : Tree := .sequence events
    let w := Writer.start v (.blank 1024)
    ((∃ w', t.write w = .ok () w') ↔ t.size ≤ w.capacity - w.offset) ∧
      ∀ w', t.write w = .ok () w' →
        w'.offset = w.offset + t.size ∧ w'.offset % 8 = 0 ∧ w'.capacity = w.capacity ∧
          ∃ a, Atom.parseWhole (w'.buffer.bytes.drop w.offset) = some a ∧
            t.Shows (.ofVocabulary v) a := by
  intro v elements pair properties events t w
  have ht : t.Valid v := by
    simp [t, events, properties, pair, elements, v, Tree.Valid, Branches.Valid, Leaf.Valid,
      Leaf.type, Leaf.body, Form.Follows, Form.timeAfter, Scalar.term, Scalar.body]
  exact write_read (s := .ofVocabulary v) (by decide) ht (by decide) rfl rfl rfl rfl (by decide)

end BlockHost
