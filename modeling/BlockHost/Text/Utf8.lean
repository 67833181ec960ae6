import BlockHost.Bytes

/-!
# Text as bytes

Texts travel as UTF-8. Reading is forgiving: of bytes that are not UTF-8 throughout, the longest
prefix that is gives the text (`decode`), and a text inside a message ends at its first NUL
(`untilNul`).

`decode_encode` says that a text written and read again is the same text.
-/

namespace BlockHost.Utf8

/-- The bytes of a run of characters. -/
def encodeChars (cs : List Char) : Bytes :=
  cs.flatMap String.utf8EncodeChar

/-- The bytes of a text. -/
def encode (text : String) : Bytes :=
  encodeChars text.toList

/-- The character that the bytes start with. -/
def headChar? (bs : Bytes) : Option Char :=
  bs.toByteArray.utf8DecodeChar? 0

/-- The characters of the longest prefix that is UTF-8. -/
def decodeChars : Bytes → List Char
  | [] => []
  | b :: bs =>
      match headChar? ((b :: bs).take 4) with
      | none => []
      | some c => c :: decodeChars ((b :: bs).drop c.utf8Size)
termination_by bs => bs.length
decreasing_by
  have := c.utf8Size_pos
  simp only [List.length_drop, List.length_cons]
  omega

/-- The text of the longest prefix that is UTF-8. -/
def decode (bs : Bytes) : String :=
  String.ofList (decodeChars bs)

/-- The text that ends at the first NUL, or at the end of the bytes. -/
def untilNul (bs : Bytes) : String :=
  decode (bs.takeWhile (· != 0))

/-! ## Reading what was written -/

theorem length_encodeChar (c : Char) : (String.utf8EncodeChar c).length = c.utf8Size :=
  String.length_utf8EncodeChar c

theorem headChar?_encodeChar_append (c : Char) (rest : Bytes) :
    headChar? (String.utf8EncodeChar c ++ rest) = some c := by
  simp [headChar?, List.toByteArray_append, ByteArray.utf8DecodeChar?_utf8EncodeChar_append]

theorem headChar?_take_four (c : Char) (rest : Bytes) :
    headChar? ((String.utf8EncodeChar c ++ rest).take 4) = some c := by
  have h := c.utf8Size_le_four
  rw [List.take_append, List.take_of_length_le (by simpa using h)]
  exact headChar?_encodeChar_append c _

theorem decodeChars_encodeChars (cs : List Char) :
    decodeChars (encodeChars cs) = cs := by
  induction cs with
  | nil => simp [encodeChars, decodeChars]
  | cons c cs ih =>
      have hpos := c.utf8Size_pos
      have hcons : encodeChars (c :: cs) = String.utf8EncodeChar c ++ encodeChars cs := by
        simp [encodeChars]
      obtain ⟨b, bs, hb⟩ : ∃ b bs, String.utf8EncodeChar c ++ encodeChars cs = b :: bs := by
        match h : String.utf8EncodeChar c ++ encodeChars cs with
        | [] =>
            have := congrArg List.length h
            simp at this
            omega
        | b :: bs => exact ⟨b, bs, rfl⟩
      rw [hcons, hb, decodeChars, ← hb, headChar?_take_four]
      simp only [List.cons.injEq, true_and]
      rw [List.drop_append_of_le_length (by simp), List.drop_of_length_le (by simp)]
      exact ih

theorem decode_encode (text : String) : decode (encode text) = text := by
  simp [decode, encode, decodeChars_encodeChars]

end BlockHost.Utf8
