/-!
# Decimal digits

Numbers as they are written with the digits 0 to 9.
-/

namespace BlockHost.Decimal

/-- The number that digits stand for. -/
def value (digits : List Char) : Nat :=
  digits.foldl (fun n c => 10 * n + (c.toNat - '0'.toNat)) 0

/-- The number that characters stand for, if they are digits only and at least one. -/
def nat? (cs : List Char) : Option Nat :=
  if cs.isEmpty || !cs.all Char.isDigit then none else some (value cs)

/-- The number that characters stand for, if they are digits with or without a sign in front. -/
def int? (cs : List Char) : Option Int :=
  match cs with
  | '-' :: digits => (nat? digits).map fun n => -(n : Int)
  | '+' :: digits => (nat? digits).map Int.ofNat
  | digits => (nat? digits).map Int.ofNat

end BlockHost.Decimal
