import BlockHost.Decimal.Shortest

/-!
# Floating-point numbers as text

A floating-point number is written with the digits of its shortest decimal, always positionally: no
exponent, no point without a digit after it. The sign of zero is kept, and the sign of a value that
is not a number is not.
-/

namespace BlockHost.Decimal

/-- The layout of a binary floating-point word: sign, then exponent, then fraction. -/
structure FloatFormat where
  /-- The number of exponent bits. -/
  exponentBits : Nat
  /-- The number of fraction bits. -/
  fractionBits : Nat
deriving DecidableEq, Repr

/-- Single precision. -/
def single : FloatFormat := ⟨8, 23⟩

/-- Double precision. -/
def double : FloatFormat := ⟨11, 52⟩

/-- What a floating-point word stands for. -/
inductive FloatValue where
  | notANumber
  | infinite (negative : Bool)
  | zero (negative : Bool)
  /-- The number `m * 2 ^ q`, with its sign; `leastMantissa` when the number below is in another
  binade. -/
  | finite (negative : Bool) (m : Nat) (q : Int) (leastMantissa : Bool)
deriving DecidableEq, Repr

/-- Takes a floating-point word apart. -/
def FloatFormat.decode (f : FloatFormat) (bits : Nat) : FloatValue :=
  let fraction := bits % 2 ^ f.fractionBits
  let exponent := bits / 2 ^ f.fractionBits % 2 ^ f.exponentBits
  let negative : Bool := bits / 2 ^ (f.fractionBits + f.exponentBits) % 2 = 1
  let bias : Int := 2 ^ (f.exponentBits - 1) - 1
  if exponent = 2 ^ f.exponentBits - 1 then
    if fraction = 0 then .infinite negative else .notANumber
  else if exponent = 0 then
    if fraction = 0 then .zero negative
    else .finite negative fraction (1 - bias - f.fractionBits) false
  else
    .finite negative (2 ^ f.fractionBits + fraction) (exponent - bias - f.fractionBits)
      (fraction = 0 && exponent ≠ 1)

/-- The digits of `n * 10 ^ e`, with a point when some stand behind it. -/
def positional (n : Nat) (e : Int) : String :=
  let digits := Nat.toDigits 10 n
  if 0 ≤ e then
    String.ofList (digits ++ List.replicate e.toNat '0')
  else
    let places := (-e).toNat
    if places < digits.length then
      String.ofList (digits.take (digits.length - places) ++ '.' ::
        digits.drop (digits.length - places))
    else
      String.ofList ('0' :: '.' :: List.replicate (places - digits.length) '0' ++ digits)

/-- The text of a floating-point value. -/
def FloatValue.text : FloatValue → String
  | .notANumber => "NaN"
  | .infinite negative => if negative then "-inf" else "inf"
  | .zero negative => if negative then "-0" else "0"
  | .finite negative m q leastMantissa =>
      let (n, e) := shortest m q leastMantissa
      (if negative then "-" else "") ++ positional n e

/-- The text of a single-precision word. -/
def singleText (bits : UInt32) : String :=
  (single.decode bits.toNat).text

/-- The text of a double-precision word. -/
def doubleText (bits : UInt64) : String :=
  (double.decode bits.toNat).text

end BlockHost.Decimal
