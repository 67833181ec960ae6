import BlockHost.Bytes

/-!
# Hexadecimal text

Bytes as two hexadecimal digits each, and words as a fixed number of digits.
`decode_encode` says that bytes written so are read back.
-/

namespace BlockHost.Hex

/-- The digits by value. -/
def digits : List Char :=
  ['0', '1', '2', '3', '4', '5', '6', '7', '8', '9', 'a', 'b', 'c', 'd', 'e', 'f']

/-- The digit of a value below 16. -/
def digit (n : Nat) : Char :=
  digits.getD n '0'

/-- The value of a digit. -/
def value? (c : Char) : Option Nat :=
  digits.findIdx? (· == c)

/-- The digits of bytes. -/
def encodeChars (bs : Bytes) : List Char :=
  bs.flatMap fun b => [digit (b.toNat / 16), digit (b.toNat % 16)]

/-- Bytes as text. -/
def encode (bs : Bytes) : String :=
  String.ofList (encodeChars bs)

/-- The bytes that digits stand for. -/
def decodeChars : List Char → Option Bytes
  | [] => some []
  | [_] => none
  | c :: d :: rest => do
      let high ← value? c
      let low ← value? d
      return UInt8.ofNat (16 * high + low) :: (← decodeChars rest)

/-- The bytes of a text. -/
def decode (text : String) : Option Bytes :=
  decodeChars text.toList

/-- A number as so many digits, the greatest first. -/
def word (width n : Nat) : String :=
  String.ofList ((List.range width).reverse.map fun i => digit (n / 16 ^ i % 16))

/-- The number that digits stand for. -/
def number? (text : String) : Option Nat :=
  text.toList.foldlM (fun n c => (value? c).map (16 * n + ·)) 0

theorem value?_digit {n : Nat} (h : n < 16) : value? (digit n) = some n := by
  revert n
  decide

theorem decodeChars_encodeChars (bs : Bytes) : decodeChars (encodeChars bs) = some bs := by
  induction bs with
  | nil => rfl
  | cons b bs ih =>
      have hb := b.toNat_lt
      have hcons : encodeChars (b :: bs)
          = digit (b.toNat / 16) :: digit (b.toNat % 16) :: encodeChars bs := by
        simp [encodeChars]
      have hsum : 16 * (b.toNat / 16) + b.toNat % 16 = b.toNat := by omega
      rw [hcons, decodeChars, value?_digit (by omega), value?_digit (by omega), ih]
      show some (UInt8.ofNat (16 * (b.toNat / 16) + b.toNat % 16) :: bs) = some (b :: bs)
      rw [hsum, UInt8.ofNat_toNat]

theorem decode_encode (bs : Bytes) : decode (encode bs) = some bs := by
  simp [decode, encode, decodeChars_encodeChars]

end BlockHost.Hex
