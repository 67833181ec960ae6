import BlockHost.Proofs.Appending
import BlockHost.Writer.Values

/-!
# Writing trees of values

Everything that can be written is a tree: leaves are written by one call each, and the composite
atoms are opened, filled and closed. `Tree.write` makes the calls in that order, and
`Tree.bytes` says what they should come to, without a writer: headers with their final sizes,
and padding by each atom's own length.

The two meet in `Tree.appends`. The induction goes over the tree and the branches of its
composite atoms together. What it carries is the state of the innermost frame: it is not a
vector, its last time is the one of the branch before, and the offset stands on the eight-byte
grid before every header.
-/

namespace BlockHost

/-- A value that one call writes. -/
inductive Leaf where
  | scalar (n : Scalar)
  | string (text : String)
  | path (text : String)
  | uri (text : String)
  | literal (text : String) (datatype lang : UInt32)
  | chunk (bs : Bytes)
  | copy (a : Atom)

/-- The composite atoms whose children are atoms themselves. -/
inductive Form where
  | tuple
  | object
  | sequence

/-- What is written in front of a child: its key and context in an object, its time in a
sequence. -/
def Form.Mark : Form → Type
  | .tuple => Unit
  | .object => UInt32 × UInt32
  | .sequence => Int64

mutual

/-- A value with all that it is made of. -/
inductive Tree where
  | leaf (l : Leaf)
  | tuple (children : Branches .tuple)
  | object (id type : UInt32) (properties : Branches .object)
  | vector (type size : UInt32) (elements : List Leaf)
  | sequence (events : Branches .sequence)

/-- The children of a composite atom, in order. -/
inductive Branches : Form → Type where
  | nil {f : Form} : Branches f
  | cons {f : Form} (mark : f.Mark) (child : Tree) (rest : Branches f) : Branches f

end

/-! ## What is written -/

namespace Leaf

/-- Writes the value by the call that is there for it. -/
def write : Leaf → Write Unit
  | scalar n => Writer.scalar n
  | string text => Writer.string text
  | path text => Writer.path text
  | uri text => Writer.uri text
  | literal text datatype lang => Writer.literal text datatype lang
  | chunk bs => Writer.chunk bs
  | copy a => Writer.copy a

/-- The type of the atom that the value becomes. -/
def type (v : Vocabulary) : Leaf → UInt32
  | scalar n => v.id n.term
  | string _ => v.id .string
  | path _ => v.id .path
  | uri _ => v.id .uri
  | literal _ _ _ => v.id .literal
  | chunk _ => v.id .chunk
  | copy a => a.type

/-- The body of the atom that the value becomes. -/
def body : Leaf → Bytes
  | scalar n => n.body
  | string text | path text | uri text => Writer.textBody text
  | literal text datatype lang =>
      Bytes.word32 datatype ++ Bytes.word32 lang ++ Writer.textBody text
  | chunk bs => bs
  | copy a => a.body

/-- Texts are free of NUL, and an atom that is copied is all there. -/
def Valid : Leaf → Prop
  | string text | path text | uri text | literal text _ _ => '\x00' ∉ text.toList
  | copy a => a.body.length = a.size.toNat
  | _ => True

theorem write_eq (l : Leaf) (w : Writer) :
    l.write w = Writer.put (l.type w.vocabulary) l.body w := by
  cases l <;> rfl

end Leaf

namespace Form

/-- The frame of a composite atom of this form. -/
def composite : Form → Composite
  | tuple => .tuple
  | object => .object
  | sequence => .sequence

/-- Writes what stands in front of a child. -/
def writeMark : (f : Form) → f.Mark → Write Unit
  | tuple, _ => pure ()
  | object, (key, context) => Writer.key key context
  | sequence, t => Writer.time t

/-- What stands in front of a child, as bytes. -/
def markBytes : (f : Form) → f.Mark → Bytes
  | tuple, _ => []
  | object, (key, context) => Bytes.word32 key ++ Bytes.word32 context
  | sequence, t => Bytes.int64 t

/-- How many bytes stand in front of a child. -/
def markSize : Form → Nat
  | tuple => 0
  | object | sequence => 8

/-- The last time, when there are times. -/
def timeAfter : (f : Form) → Int64 → f.Mark → Int64
  | sequence, _, t => t
  | tuple, last, _ | object, last, _ => last

/-- Times do not decrease. -/
def Follows : (f : Form) → Int64 → f.Mark → Prop
  | sequence, last, t => last ≤ t
  | tuple, _, _ | object, _, _ => True

theorem length_markBytes (f : Form) (mark : f.Mark) : (f.markBytes mark).length = f.markSize := by
  cases f with
  | tuple => rfl
  | object =>
      show (Bytes.word32 mark.1 ++ Bytes.word32 mark.2).length = 8
      simp
  | sequence => exact Bytes.length_int64 mark

end Form

mutual

/-- Writes the tree: a leaf by one call, and a composite atom by opening a frame, writing the children and
closing the frame. -/
def Tree.write : Tree → Write Unit
  | .leaf l => l.write
  | .tuple children => Writer.openTuple >>= fun frame => children.write >>= fun _ =>
      Writer.close frame
  | .object id type properties => Writer.openObject id type >>= fun frame =>
      properties.write >>= fun _ => Writer.close frame
  | .vector type size elements => Writer.openVector type size >>= fun frame =>
      elements.forM Leaf.write >>= fun _ => Writer.close frame
  | .sequence events => Writer.openSequence >>= fun frame => events.write >>= fun _ =>
      Writer.close frame

/-- Writes the children, each behind its mark. -/
def Branches.write {f : Form} : Branches f → Write Unit
  | .nil => pure ()
  | .cons mark child rest => f.writeMark mark >>= fun _ => child.write >>= fun _ => rest.write

end

/-- The type of the atom that the tree becomes. -/
def Tree.type (v : Vocabulary) : Tree → UInt32
  | .leaf l => l.type v
  | .tuple _ => v.id .tuple
  | .object _ _ _ => v.id .object
  | .vector _ _ _ => v.id .vector
  | .sequence _ => v.id .sequence

mutual

/-- The body of the atom that the tree becomes, as the layouts of the composite atoms give it. -/
def Tree.body (v : Vocabulary) : Tree → Bytes
  | .leaf l => l.body
  | .tuple children => children.bytes v
  | .object id type properties => Bytes.word32 id ++ Bytes.word32 type ++ properties.bytes v
  | .vector type size elements =>
      Bytes.word32 type ++ Bytes.word32 size ++ (elements.map Leaf.body).flatten
  | .sequence events => events.bytes v

/-- The children as bytes, each behind its mark and padded. -/
def Branches.bytes (v : Vocabulary) {f : Form} : Branches f → Bytes
  | .nil => []
  | .cons mark child rest =>
      f.markBytes mark ++ Atom.encode (child.type v) (child.body v) ++ rest.bytes v

end

/-- The tree as one padded atom. -/
def Tree.bytes (v : Vocabulary) (t : Tree) : Bytes :=
  Atom.encode (t.type v) (t.body v)

mutual

/-- How many frames are open at most while a tree is written. -/
def Tree.nesting : Tree → Nat
  | .leaf _ => 0
  | .tuple children => children.nesting + 1
  | .object _ _ properties => properties.nesting + 1
  | .vector _ _ _ => 1
  | .sequence events => events.nesting + 1

/-- How many frames are open at most while children are written. -/
def Branches.nesting {f : Form} : Branches f → Nat
  | .nil => 0
  | .cons _ child rest => max child.nesting rest.nesting

end

mutual

/-- What the calls ask of the values they are given. -/
def Tree.Valid (v : Vocabulary) : Tree → Prop
  | .leaf l => l.Valid
  | .tuple children => children.Valid v 0
  | .object _ _ properties => properties.Valid v 0
  | .vector type size elements => 0 < size.toNat ∧
      ∀ l ∈ elements, l.Valid ∧ l.type v = type ∧ l.body.length = size.toNat
  | .sequence events => events.Valid v 0

/-- All children are valid, and their times do not decrease from the given one on. -/
def Branches.Valid (v : Vocabulary) {f : Form} : Int64 → Branches f → Prop
  | _, .nil => True
  | last, .cons mark child rest =>
      f.Follows last mark ∧ child.Valid v ∧ rest.Valid v (f.timeAfter last mark)

end

mutual

/-- The size of a body, as the layouts of the composite atoms give it. -/
def Tree.bodySize : Tree → Nat
  | .leaf l => l.body.length
  | .tuple children => children.size
  | .object _ _ properties => 8 + properties.size
  | .vector _ size elements => 8 + elements.length * size.toNat
  | .sequence events => events.size

/-- The size of the children, with their marks and padding. -/
def Branches.size {f : Form} : Branches f → Nat
  | .nil => 0
  | .cons _ child rest => f.markSize + padded (Atom.headerSize + child.bodySize) + rest.size

end

/-- The size of a tree on the eight-byte grid. -/
def Tree.size (t : Tree) : Nat :=
  padded (Atom.headerSize + t.bodySize)

/-! ## Sizes -/

theorem Leaf.length_bodies {elements : List Leaf} {n : Nat}
    (h : ∀ l ∈ elements, l.body.length = n) :
    (elements.map Leaf.body).flatten.length = elements.length * n := by
  induction elements with
  | nil => simp
  | cons l rest ih =>
      have hrest := ih fun m hm => h m (List.mem_cons_of_mem _ hm)
      rw [List.map_cons, List.flatten_cons, List.length_append, h l List.mem_cons_self, hrest,
        List.length_cons, Nat.succ_mul, Nat.add_comm]

mutual

theorem Tree.length_body {v : Vocabulary} : ∀ t : Tree, t.Valid v → (t.body v).length = t.bodySize
  | .leaf l, _ => rfl
  | .tuple children, ht => children.length_bytes ht
  | .object id type properties, ht => by
      have hrest := properties.length_bytes ht
      simp only [Tree.body, Tree.bodySize, List.length_append, Bytes.length_word32, hrest]
  | .vector type size elements, ht => by
      have hall := Leaf.length_bodies fun l hl => (ht.2 l hl).2.2
      simp only [Tree.body, Tree.bodySize, List.length_append, Bytes.length_word32, hall]
  | .sequence events, ht => events.length_bytes ht

theorem Branches.length_bytes {v : Vocabulary} {f : Form} : ∀ {last : Int64} (bs : Branches f),
    bs.Valid v last → (bs.bytes v).length = bs.size
  | _, .nil, _ => rfl
  | _, .cons mark child rest, hbs => by
      have hchild := child.length_body hbs.2.1
      have hrest := rest.length_bytes hbs.2.2
      simp only [Branches.bytes, Branches.size, List.length_append, f.length_markBytes,
        Atom.length_encode, hchild,
        hrest, Atom.headerSize]

end

theorem Tree.length_bytes {v : Vocabulary} {t : Tree} (ht : t.Valid v) :
    (t.bytes v).length = t.size := by
  rw [bytes, size, Atom.length_encode, length_body t ht, Atom.headerSize]

theorem Tree.length_bytes_mod (v : Vocabulary) (t : Tree) : (t.bytes v).length % 8 = 0 := by
  rw [bytes, Atom.length_encode]
  exact padded_mod _

/-! ## The calls append the bytes -/

open Writer

/-- Inside a frame of its form a mark is appended, and a time remembered. -/
theorem Form.appends_mark (f : Form) (mark : f.Mark) {w : Writer} {header : Nat} {last : Int64}
    {outer : List OpenFrame} (hw : w.failed = false)
    (hframes : w.frames = ⟨header, f.composite, last⟩ :: outer) (hmark : f.Follows last mark) :
    Appends w (f.markBytes mark) ()
      ((w.append (f.markBytes mark)).withFrames
        (⟨header, f.composite, f.timeAfter last mark⟩ :: outer))
      (f.writeMark mark w) := by
  have hsame : ∀ bs, (w.append bs).withFrames (⟨header, f.composite, last⟩ :: outer)
      = w.append bs := by
    intro bs
    rw [← hframes, ← frames_append w bs, withFrames_frames]
  cases f with
  | tuple =>
      have hstay : Appends w [] ()
          ((w.append []).withFrames (⟨header, tuple.composite, last⟩ :: outer))
          ((pure () : Write Unit) w) := by
        rw [hsame, append_nil]
        exact appends_pure
      exact hstay
  | object =>
      have hkey := appends_key hw mark.1 mark.2
      rw [← hsame] at hkey
      exact hkey
  | sequence => exact appends_time hw hframes hmark

theorem appends_elements {v : Vocabulary} {type size : UInt32} {elements : List Leaf}
    (h : ∀ l ∈ elements, l.Valid ∧ l.type v = type ∧ l.body.length = size.toNat) :
    ∀ {w : Writer} {header : Nat} {last : Int64} {outer : List OpenFrame}, w.failed = false →
      w.vocabulary = v → w.frames = ⟨header, .vector type size, last⟩ :: outer →
      Appends w (elements.map Leaf.body).flatten () (w.append (elements.map Leaf.body).flatten)
        (elements.forM Leaf.write w) := by
  induction elements with
  | nil =>
      intro w header last outer hw hv hframes
      rw [List.map_nil, List.flatten_nil, append_nil]
      exact appends_pure
  | cons l rest ih =>
      intro w header last outer hw hv hframes
      obtain ⟨-, htype, hsize⟩ := h l List.mem_cons_self
      have hl := appends_element hw hframes hsize
      rw [← htype, ← hv, ← l.write_eq] at hl
      have hrest := ih (fun m hm => h m (List.mem_cons_of_mem _ hm)) (w := w.append l.body) hw hv
        hframes
      rw [append_append] at hrest
      rw [List.map_cons, List.flatten_cons]
      exact hl.bind rfl fun _ => hrest

/-- The branches are appended where their composite atom is the innermost one that is open. -/
def Branches.Appended {f : Form} (bs : Branches f) : Prop :=
  ∀ (w : Writer) (header : Nat) (last : Int64) (outer : List OpenFrame), w.failed = false →
    w.offset % 8 = 0 → w.frames = ⟨header, f.composite, last⟩ :: outer →
    w.depth + bs.nesting ≤ maxDepth → bs.Valid w.vocabulary last → ∃ final,
      Appends w (bs.bytes w.vocabulary) ()
        ((w.append (bs.bytes w.vocabulary)).withFrames (⟨header, f.composite, final⟩ :: outer))
        (bs.write w)

/-- What is appended behind the header of a frame that has just been opened. -/
theorem Branches.Appended.appends_opened {f : Form} {bs : Branches f} (h : bs.Appended)
    {w : Writer} (term : Term) (head : Bytes) (hhead : head.length % 8 = 0) (hw : w.failed = false)
    (hmod : w.offset % 8 = 0) (hdepth : w.depth + (bs.nesting + 1) ≤ maxDepth)
    (hbs : bs.Valid w.vocabulary 0) : ∃ last,
      Appends (w.opened term f.composite head) (bs.bytes w.vocabulary) ()
        (((w.opened term f.composite head).append (bs.bytes w.vocabulary)).withFrames
          (⟨w.offset, f.composite, last⟩ :: w.frames))
        (bs.write (w.opened term f.composite head)) := by
  refine h _ _ _ _ hw ?_ rfl ?_ hbs
  · simp only [opened, offset_withFrames, offset_append, List.length_append, Atom.length_header]
    omega
  · simp only [opened, depth_withFrames, List.length_cons]
    have hlength : w.depth = w.frames.length := rfl
    omega

mutual

/-- On the eight-byte grid, outside a vector and with frames enough to spare, a tree is
appended. -/
theorem Tree.appends : ∀ (t : Tree) {w : Writer}, w.failed = false → w.offset % 8 = 0 →
    w.inVector = false → w.depth + t.nesting ≤ maxDepth → t.Valid w.vocabulary →
    Appends w (t.bytes w.vocabulary) () (w.append (t.bytes w.vocabulary)) (t.write w)
  | .leaf l, w, hw, _, hv, _, _ => by
      rw [Tree.write, l.write_eq]
      exact appends_put hw hv _ _
  | .tuple children, w, hw, hmod, hv, hdepth, ht => by
      rw [Tree.nesting] at hdepth
      rw [Tree.Valid] at ht
      have hfill := children.appends.appends_opened .tuple [] rfl hw hmod hdepth ht
      have henclose := appends_enclose hw hmod hv (by omega) hfill
      rw [Tree.write, openTuple, Tree.bytes, Tree.type, Tree.body]
      exact henclose
  | .object id type properties, w, hw, hmod, hv, hdepth, ht => by
      rw [Tree.nesting] at hdepth
      rw [Tree.Valid] at ht
      have hfill := properties.appends.appends_opened .object (Bytes.word32 id ++ Bytes.word32 type)
        (by simp) hw hmod hdepth ht
      have henclose := appends_enclose hw hmod hv (by omega) hfill
      rw [Tree.write, openObject, Tree.bytes, Tree.type, Tree.body]
      exact henclose
  | .vector type size elements, w, hw, hmod, hv, hdepth, ht => by
      rw [Tree.nesting] at hdepth
      rw [Tree.Valid] at ht
      have hfill := appends_elements (w := w.opened .vector (.vector type size)
        (Bytes.word32 type ++ Bytes.word32 size)) ht.2 hw rfl rfl
      have henclose := appends_enclose hw hmod hv (by omega) ⟨0, hfill⟩
      rw [Tree.write, openVector, Tree.bytes, Tree.type, Tree.body]
      exact henclose
  | .sequence events, w, hw, hmod, hv, hdepth, ht => by
      rw [Tree.nesting] at hdepth
      rw [Tree.Valid] at ht
      have hfill := events.appends.appends_opened .sequence [] rfl hw hmod hdepth ht
      have henclose := appends_enclose hw hmod hv (by omega) hfill
      rw [Tree.write, openSequence, Tree.bytes, Tree.type, Tree.body]
      exact henclose

theorem Branches.appends {f : Form} : ∀ bs : Branches f, bs.Appended
  | .nil, w, header, last, outer, hw, hmod, hframes, hdepth, hbs => by
      refine ⟨last, ?_⟩
      rw [Branches.bytes, append_nil, ← hframes, withFrames_frames]
      exact appends_pure
  | .cons mark child rest, w, header, last, outer, hw, hmod, hframes, hdepth, hbs => by
      obtain ⟨hmark, hchild, hrest⟩ := hbs
      rw [Branches.nesting] at hdepth
      have hmarked := f.appends_mark mark hw hframes hmark
      have hsize : f.markSize % 8 = 0 := by cases f <;> rfl
      have houter : w.depth = outer.length + 1 := by
        rw [depth, hframes]
        rfl
      -- The child is written in the same frame, whose kind is not that of a vector.
      have hchild := child.appends (w := (w.append (f.markBytes mark)).withFrames
        (⟨header, f.composite, f.timeAfter last mark⟩ :: outer)) hw
        (by rw [offset_withFrames, offset_append, f.length_markBytes]; omega)
        (by cases f <;> rfl)
        (by rw [depth_withFrames, List.length_cons]; omega) hchild
      have hgrid := child.length_bytes_mod w.vocabulary
      obtain ⟨final, hrest⟩ := rest.appends (((w.append (f.markBytes mark)).withFrames
        (⟨header, f.composite, f.timeAfter last mark⟩ :: outer)).append (child.bytes w.vocabulary))
        header (f.timeAfter last mark) outer hw
        (by rw [offset_append, offset_withFrames, offset_append, f.length_markBytes]; omega)
        rfl
        (by rw [depth_append, depth_withFrames, List.length_cons]; omega) hrest
      refine ⟨final, ?_⟩
      have hwhole : (((w.append (f.markBytes mark)).withFrames
          (⟨header, f.composite, f.timeAfter last mark⟩ :: outer)).append
            (child.bytes w.vocabulary)).append (rest.bytes w.vocabulary)
          = (w.append (f.markBytes mark ++
              (child.bytes w.vocabulary ++ rest.bytes w.vocabulary))).withFrames
              (⟨header, f.composite, f.timeAfter last mark⟩ :: outer) := by
        rw [append_withFrames, append_withFrames, append_append, append_append]
      rw [vocabulary_append, vocabulary_withFrames, vocabulary_append, hwhole,
        withFrames_withFrames] at hrest
      rw [Branches.write, Branches.bytes, List.append_assoc]
      exact hmarked.bind rfl fun _ => hchild.bind rfl fun _ => hrest

end

end BlockHost
