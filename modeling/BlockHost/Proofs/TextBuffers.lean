import BlockHost.Proofs.CutTexts

/-!
# Bounded texts in their buffers

A bounded text is kept in a buffer of fixed size, of which the bytes in front are in use. What is pushed
is cut by going back from where the room ends, byte by byte, to where a character begins, and the bytes up
to there are copied. So whether the buffer holds a text at all depends on every cut.

`TextBuffer` is that buffer, with every difference, sum and range checked. It is never brought down and
its bytes are at every moment those of the bounded text after the same calls
(`TextBuffer.performAll_mirrors`). What it holds, what is cut and which lines are read back from it
follows from there, for a buffer of any size and all calls (`TextBuffer.performAll_told`).
-/

namespace BlockHost

/-- A text in a buffer, of which so many bytes are in use. -/
structure TextBuffer (capacity : Nat) where
  bytes : Bytes
  length_eq : bytes.length = capacity
  size : Nat
  /-- Whether something has been cut off. -/
  cut : Bool

namespace Utf8

/-- Whether a character begins at a byte of a text, or the text ends there. Inside a character stand the
bytes from 128 to 191. -/
def beginsAt (bs : Bytes) (place : Nat) : Bool :=
  if place = 0 then true
  else if bs.length ≤ place then place = bs.length
  else match bs[place]? with
    | none => false
    | some byte => byte < 128 || 192 ≤ byte

/-- The last byte up to a place at which a character begins, or the end of the text. -/
def lastBegin (bs : Bytes) : Nat → Except Fault Nat
  | 0 => if beginsAt bs 0 then .ok 0 else .error .subtraction
  | place + 1 => if beginsAt bs (place + 1) then .ok (place + 1) else lastBegin bs place

theorem encodeChar_bytes (c : Char) : ∃ first rest, String.utf8EncodeChar c = first :: rest ∧
    (first.toNat < 128 ∨ 192 ≤ first.toNat) ∧ ∀ byte ∈ rest, 128 ≤ byte.toNat ∧ byte.toNat < 192 := by
  have htail : ∀ n : Nat, 128 ≤ (UInt8.ofNat (n % 64 + 128)).toNat ∧
      (UInt8.ofNat (n % 64 + 128)).toNat < 192 := by
    intro n
    rw [UInt8.toNat_ofNat']
    omega
  unfold String.utf8EncodeChar
  simp only
  split
  · refine ⟨_, [], rfl, .inl ?_, by simp⟩
    rw [UInt8.toNat_ofNat']
    omega
  split
  · refine ⟨_, _, rfl, .inr ?_, ?_⟩
    · rw [UInt8.toNat_ofNat']
      omega
    · simp only [List.forall_mem_cons]
      exact ⟨htail _, by simp⟩
  split
  · refine ⟨_, _, rfl, .inr ?_, ?_⟩
    · rw [UInt8.toNat_ofNat']
      omega
    · simp only [List.forall_mem_cons]
      exact ⟨htail _, htail _, by simp⟩
  · refine ⟨_, _, rfl, .inr ?_, ?_⟩
    · rw [UInt8.toNat_ofNat']
      omega
    · simp only [List.forall_mem_cons]
      exact ⟨htail _, htail _, htail _, by simp⟩

theorem beginsAt_inside {first : UInt8} {inner rest : Bytes}
    (hinner : ∀ byte ∈ inner, 128 ≤ byte.toNat ∧ byte.toNat < 192) {place : Nat}
    (hplace : place < inner.length) : beginsAt (first :: inner ++ rest) (place + 1) = false := by
  have hget : (first :: inner ++ rest)[place + 1]? = some inner[place] := by
    rw [List.cons_append, List.getElem?_cons_succ, List.getElem?_append_left hplace,
      List.getElem?_eq_getElem hplace]
  obtain ⟨hlow, hhigh⟩ := hinner inner[place] (List.getElem_mem hplace)
  have hlength : ¬ (first :: inner ++ rest).length ≤ place + 1 := by
    rw [List.length_append, List.length_cons]
    omega
  rw [beginsAt, if_neg (Nat.succ_ne_zero place), if_neg hlength, hget]
  simp only [Bool.or_eq_false_iff, decide_eq_false_iff_not, UInt8.lt_iff_toNat_lt, UInt8.le_iff_toNat_le]
  exact ⟨Nat.not_lt.2 hlow, Nat.not_le.2 hhigh⟩

theorem beginsAt_behind {front rest : Bytes} (hfront : front ≠ [])
    (hrest : ∀ first ∈ rest.head?, first.toNat < 128 ∨ 192 ≤ first.toNat) (place : Nat) :
    beginsAt (front ++ rest) (front.length + place) = beginsAt rest place := by
  have hpos : 0 < front.length := List.length_pos_iff.2 hfront
  rw [beginsAt, if_neg (by omega), List.length_append, List.getElem?_append_right (by omega),
    Nat.add_sub_cancel_left, beginsAt]
  cases place with
  | zero =>
      cases rest with
      | nil => simp
      | cons first rest =>
          rw [if_neg (by simp), if_pos rfl]
          simpa [UInt8.lt_iff_toNat_lt, UInt8.le_iff_toNat_le] using hrest first rfl
  | succ place => simp only [Nat.succ_ne_zero, Nat.add_le_add_iff_left, Nat.add_left_cancel_iff, if_false]

/-- The bytes of a text show where its characters begin. -/
theorem beginsAt_encodeChars (cs : List Char) (place : Nat) :
    beginsAt (encodeChars cs) place = Checked.isBoundary cs place := by
  induction cs generalizing place with
  | nil => cases place <;> simp [beginsAt, encodeChars, Checked.isBoundary]
  | cons c cs ih =>
      cases place with
      | zero => simp [beginsAt, Checked.isBoundary]
      | succ place =>
          obtain ⟨first, inner, hencode, -, hinner⟩ := encodeChar_bytes c
          have hbytes : encodeChars (c :: cs) = String.utf8EncodeChar c ++ encodeChars cs := by
            simp [encodeChars]
          have hlength := length_encodeChar c
          rw [Checked.isBoundary]
          by_cases hle : c.utf8Size ≤ place + 1
          · have hhead : ∀ first ∈ (encodeChars cs).head?, first.toNat < 128 ∨ 192 ≤ first.toNat := by
              cases cs with
              | nil => simp [encodeChars]
              | cons d ds =>
                  obtain ⟨first, inner, hencode, hfirst, -⟩ := encodeChar_bytes d
                  simp [encodeChars, hencode, hfirst]
            obtain ⟨more, hmore⟩ := Nat.exists_eq_add_of_le hle
            rw [hbytes, hmore, ← hlength, beginsAt_behind (by rw [hencode]; simp) hhead, ih]
            simp
          · rw [hencode, List.length_cons] at hlength
            rw [hbytes, hencode, beginsAt_inside hinner (by omega)]
            simp [hle]

theorem lastBegin_encodeChars (cs : List Char) (place : Nat) :
    lastBegin (encodeChars cs) place = .ok (Text.byteSize (Text.fitting place cs)) := by
  rw [← Checked.boundary_eq]
  induction place with
  | zero => rw [lastBegin, Checked.boundary, beginsAt_encodeChars]
  | succ place ih => rw [lastBegin, Checked.boundary, beginsAt_encodeChars, ih]

end Utf8

namespace TextBuffer

variable {capacity : Nat}

/-- A buffer of zeros of which nothing is in use. -/
def empty : TextBuffer capacity :=
  ⟨Bytes.zeros capacity, Bytes.length_zeros capacity, 0, false⟩

/-- Nothing is in use any more. -/
def clear (b : TextBuffer capacity) : TextBuffer capacity :=
  { b with size := 0, cut := false }

/-- Copies the bytes of a text behind those in use, up to the last character for which there is room. -/
def push (b : TextBuffer capacity) (added : String) : Except Fault (TextBuffer capacity) := do
  let source := Utf8.encode added
  let room ← Checked.sub capacity b.size
  let taken ← Utf8.lastBegin source (min source.length room)
  let stop ← Fault.checkedAdd b.size taken
  if capacity < stop then throw (.range capacity b.size taken)
  let part ← Checked.range source 0 taken
  return { bytes := b.bytes.overwrite b.size part
           length_eq := by rw [Bytes.length_overwrite, b.length_eq]
           size := stop
           cut := b.cut || taken < source.length }

/-- What a call does to a buffer. -/
def perform (b : TextBuffer capacity) : TextCall → Except Fault (TextBuffer capacity)
  | .push added => b.push added
  | .line added => do (← b.push added).push "\n"
  | .write added => b.push added
  | .clear => return b.clear

/-- What calls do to a buffer, one after the other. -/
def performAll (b : TextBuffer capacity) (calls : List TextCall) : Except Fault (TextBuffer capacity) :=
  calls.foldlM perform b

/-- The bytes in use. -/
def used (b : TextBuffer capacity) : Except Fault Bytes :=
  Checked.range b.bytes 0 b.size

/-- The text in use, which is empty when the bytes are not those of a text. -/
def text (b : TextBuffer capacity) : Except Fault String := do
  return (String.fromUTF8? (← b.used).toByteArray).getD ""

/-- The lines in use that are not empty. -/
def lines (b : TextBuffer capacity) : Except Fault (List String) := do
  return (Text.lines (← b.text)).filter fun line => !line.isEmpty

/-- A buffer with the bytes of a bounded text. -/
structure Mirrors (b : TextBuffer capacity) (t : BoundedText capacity) : Prop where
  size_eq : b.size = t.size
  bytes_eq : b.bytes.take b.size = Utf8.encodeChars t.chars
  cut_eq : b.cut = t.cut

variable (capacity) in
theorem mirrors_empty : (empty : TextBuffer capacity).Mirrors .empty :=
  ⟨rfl, rfl, rfl⟩

theorem Mirrors.clear {b : TextBuffer capacity} : b.clear.Mirrors .empty :=
  ⟨rfl, rfl, rfl⟩

theorem encodeChars_append (cs ds : List Char) :
    Utf8.encodeChars (cs ++ ds) = Utf8.encodeChars cs ++ Utf8.encodeChars ds := by
  simp [Utf8.encodeChars]

theorem length_encodeChars (cs : List Char) : (Utf8.encodeChars cs).length = Text.byteSize cs := by
  have hlength := Checked.length_encode (String.ofList cs)
  rwa [Utf8.encode, String.toList_ofList] at hlength

theorem range_encode {text : String} {part : List Char} (h : part <+: text.toList) :
    Checked.range (Utf8.encode text) 0 (Text.byteSize part) = .ok (Utf8.encodeChars part) := by
  obtain ⟨rest, hsplit⟩ := h
  have hbytes : Utf8.encode text = Utf8.encodeChars part ++ Utf8.encodeChars rest := by
    rw [Utf8.encode, ← hsplit, encodeChars_append]
  have hlength := length_encodeChars part
  have hinside : Text.byteSize part ≤ (Utf8.encode text).length := by
    rw [hbytes, List.length_append, hlength]
    exact Nat.le_add_right _ _
  rw [Checked.range_eq (Nat.zero_le _) hinside, hbytes, List.drop_zero, Nat.sub_zero, List.take_left' hlength]

theorem push_mirrors (hcapacity : capacity < 2 ^ 64) {b : TextBuffer capacity} {t : BoundedText capacity}
    (h : b.Mirrors t) (added : String) : ∃ b', b.push added = .ok b' ∧ b'.Mirrors (t.push added) := by
  obtain ⟨bytes, hlength, size, cut⟩ := b
  obtain ⟨rfl, hbytes, rfl⟩ := h
  have hle := t.size_le
  have hfits := Text.byteSize_fitting_le (capacity - t.size) added.toList
  have hpart := range_encode (Checked.fitting_begins (capacity - t.size) added.toList)
  have hshort := Checked.byteSize_fitting_lt (capacity - t.size) added.toList
  have hchars := t.chars_push added
  have htaken : Utf8.lastBegin (Utf8.encode added) (min (Utf8.encode added).length (capacity - t.size)) =
      .ok (Text.byteSize (Text.fitting (capacity - t.size) added.toList)) := by
    rw [Checked.length_encode, Utf8.encode, Utf8.lastBegin_encodeChars, Checked.fitting_min]
  have hcut : (t.push added).cut = (t.cut || decide (Text.byteSize
      (Text.fitting (capacity - t.size) added.toList) < Text.byteSize added.toList)) := by
    simp only [BoundedText.push, hshort]
  generalize Text.fitting (capacity - t.size) added.toList = kept at hfits hchars htaken hpart hcut
  have hroom : t.size + (Utf8.encodeChars kept).length ≤ bytes.length := by
    rw [length_encodeChars, hlength]
    omega
  simp only [TextBuffer.push, Checked.sub_eq hle, htaken, bind, Except.bind,
    Checked.add_eq (show t.size + Text.byteSize kept < 2 ^ 64 by omega),
    if_neg (show ¬ capacity < t.size + Text.byteSize kept by omega), hpart]
  refine ⟨_, rfl, ?_, ?_, ?_⟩
  · rw [BoundedText.size_eq_chars (t.push added), hchars, Text.byteSize_append, ← BoundedText.size_eq_chars]
  · show (bytes.overwrite t.size (Utf8.encodeChars kept)).take (t.size + Text.byteSize kept) = _
    rw [hchars, encodeChars_append, ← hbytes, Bytes.overwrite_eq hroom]
    refine List.take_left' ?_
    rw [List.length_append, List.length_take, length_encodeChars, hlength]
    omega
  · rw [hcut, ← Checked.length_encode]

theorem perform_mirrors (hcapacity : capacity < 2 ^ 64) {b : TextBuffer capacity}
    {t : BoundedText capacity} (h : b.Mirrors t) (call : TextCall) :
    ∃ b', b.perform call = .ok b' ∧ b'.Mirrors (t.perform call) := by
  cases call with
  | push added => exact push_mirrors hcapacity h added
  | write added => exact push_mirrors hcapacity h added
  | line added =>
      obtain ⟨b₁, hpush, hmirrors⟩ := push_mirrors hcapacity h added
      obtain ⟨b₂, hfeed, hmirrors⟩ := push_mirrors hcapacity hmirrors "\n"
      refine ⟨b₂, ?_, hmirrors⟩
      simp only [perform, hpush, bind, Except.bind, hfeed]
  | clear => exact ⟨b.clear, rfl, .clear⟩

/-- A buffer is not brought down, and has the bytes of the text after the same calls. -/
theorem performAll_mirrors (hcapacity : capacity < 2 ^ 64) {b : TextBuffer capacity}
    {t : BoundedText capacity} (h : b.Mirrors t) (calls : List TextCall) :
    ∃ b', b.performAll calls = .ok b' ∧ b'.Mirrors (t.performAll calls) := by
  induction calls generalizing b t with
  | nil => exact ⟨b, rfl, h⟩
  | cons call calls ih =>
      obtain ⟨b₁, hperform, hmirrors⟩ := perform_mirrors hcapacity h call
      obtain ⟨b₂, hrest, hmirrors⟩ := ih hmirrors
      refine ⟨b₂, ?_, hmirrors⟩
      rw [performAll, List.foldlM_cons, hperform]
      exact hrest

/-! ## Reading -/

theorem fromUTF8?_encodeChars (cs : List Char) :
    String.fromUTF8? (Utf8.encodeChars cs).toByteArray = some (String.ofList cs) := by
  have hvalid : (Utf8.encodeChars cs).toByteArray.IsValidUTF8 := .intro cs rfl
  rw [String.fromUTF8?, dif_pos hvalid]
  rfl

theorem Mirrors.used {b : TextBuffer capacity} {t : BoundedText capacity} (h : b.Mirrors t) :
    b.used = .ok (Utf8.encodeChars t.chars) := by
  have hle : b.size ≤ b.bytes.length := by
    rw [b.length_eq, h.size_eq]
    exact t.size_le
  rw [TextBuffer.used, Checked.range_eq (Nat.zero_le _) hle, List.drop_zero, Nat.sub_zero, h.bytes_eq]

theorem Mirrors.text {b : TextBuffer capacity} {t : BoundedText capacity} (h : b.Mirrors t) :
    b.text = .ok t.text := by
  simp only [TextBuffer.text, h.used, bind, Except.bind, fromUTF8?_encodeChars]
  rfl

theorem Mirrors.lines {b : TextBuffer capacity} {t : BoundedText capacity} (h : b.Mirrors t) :
    b.lines = .ok t.lines := by
  simp only [TextBuffer.lines, h.text, bind, Except.bind]
  rfl

/-- What a buffer holds after calls of which the parts `parts` of the texts pushed since the last clear are
kept. -/
structure Told (b : TextBuffer capacity) (calls : List TextCall) (parts : List String) : Prop where
  size_le : b.size ≤ capacity
  kept : Text.Kept capacity (TextCall.pushed calls) parts
  /-- The bytes in use are those of a text. -/
  valid : ∃ used, b.used = .ok used ∧ used.length = b.size ∧
    String.fromUTF8? used.toByteArray = some (String.join parts)
  text_eq : b.text = .ok (String.join parts)
  cut_iff : b.cut = true ↔ parts ≠ TextCall.pushed calls
  /-- Of lines as many are given back as were put there, in their order and each as far as it was kept. -/
  lines : ∀ added : List String, TextCall.sinceClear calls = added.map .line →
    (∀ line ∈ added, Text.IsLine line) →
      (∃ fronts, List.Forall₂ (fun front line => front.toList <+: line.toList) fronts added ∧
        b.lines = .ok (fronts.filter fun line => !line.isEmpty)) ∧
      (b.cut = false → b.lines = .ok (added.filter fun line => !line.isEmpty))

/-- Whatever is called on a new buffer, nothing brings it down, and it is told what it holds; the bounded
text after the same calls reads the same. -/
theorem performAll_told (hcapacity : capacity < 2 ^ 64) (calls : List TextCall) :
    ∃ (b : TextBuffer capacity) (parts : List String), empty.performAll calls = .ok b ∧
      b.Told calls parts ∧ (BoundedText.empty.performAll calls : BoundedText capacity).text = String.join parts ∧
      b.Mirrors (BoundedText.empty.performAll calls) := by
  obtain ⟨b, hb, hmirrors⟩ := performAll_mirrors hcapacity (mirrors_empty capacity) calls
  obtain ⟨parts, hkept, hchars, hcut⟩ := BoundedText.holds_performAll capacity calls
  have hsince := BoundedText.performAll_sinceClear capacity calls
  generalize (BoundedText.empty.performAll calls : BoundedText capacity) = t at hmirrors hchars hcut hsince ⊢
  have htext : t.text = String.join parts := by
    rw [BoundedText.text, hchars, String.ofList_toList]
  refine ⟨b, parts, hb, ?_, htext, hmirrors⟩
  constructor
  case size_le =>
    rw [hmirrors.size_eq]
    exact t.size_le
  case kept => exact hkept
  case valid =>
    refine ⟨_, hmirrors.used, ?_, ?_⟩
    · rw [length_encodeChars, hmirrors.size_eq, BoundedText.size_eq_chars]
    · rw [fromUTF8?_encodeChars, ← htext, BoundedText.text]
  case text_eq => rw [hmirrors.text, htext]
  case cut_iff => rw [hmirrors.cut_eq, hcut]
  case lines =>
    intro added hadded hlines
    rw [hadded] at hsince
    obtain ⟨fronts, hbegin, hlined⟩ := BoundedText.lined_performAll capacity hlines
    rw [← hsince] at hlined
    refine ⟨⟨fronts, hbegin, by rw [hmirrors.lines, hlined.lines_eq]⟩, fun hwhole => ?_⟩
    rw [hmirrors.cut_eq, hsince] at hwhole
    rw [hmirrors.lines, hsince, BoundedText.lines_performAll hlines hwhole]

/-- A cut in front of a character of two bytes leaves room for one, into which the line feed goes. -/
theorem performAll_told_wide :
    let calls := [.push "lost", .clear, .line "one", .line "déé", .line "two"]
    8 < 2 ^ 64 ∧ ∃ (b : TextBuffer 8) (parts : List String), empty.performAll calls = .ok b ∧
      b.Told calls parts ∧ b.text = .ok "one\ndé\n" ∧ b.cut = true ∧ b.lines = .ok ["one", "dé"] := by
  intro calls
  have htext : (BoundedText.empty.performAll calls : BoundedText 8).text = "one\ndé\n" := by decide
  have hcut : (BoundedText.empty.performAll calls : BoundedText 8).cut = true := by decide
  have hlines : (BoundedText.empty.performAll calls : BoundedText 8).lines = ["one", "dé"] := by decide
  have hroom : 8 < 2 ^ 64 := by decide
  obtain ⟨b, parts, hb, htold, -, hmirrors⟩ := performAll_told hroom calls
  refine ⟨hroom, b, parts, hb, htold, ?_, ?_, ?_⟩
  · rw [hmirrors.text, htext]
  · rw [hmirrors.cut_eq, hcut]
  · rw [hmirrors.lines, hlines]

end TextBuffer

end BlockHost
