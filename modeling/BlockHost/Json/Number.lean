import BlockHost.Json.Basic

/-!
# Numbers in JSON

A number is written with a minus sign or none, digits without a leading zero, and then perhaps a
fraction and an exponent. There is no bound on its digits, but a number is refused when it is too
large for a double (`Number.isFinite`).
-/

namespace BlockHost.Json

/-- A number as it is written. -/
structure Number where
  negative : Bool
  /-- The digits in front of the point. -/
  whole : List Char
  /-- The digits behind the point. -/
  fraction : List Char
  /-- The power of ten, when one is written. -/
  exponent : Option Int
deriving DecidableEq, Repr

namespace Number

/-! ## Reading -/

/-- The digits at the start, of which there is at least one, and what follows them. -/
def digits? (cs : List Char) : Option (List Char × List Char) :=
  let digits := cs.takeWhile Char.isDigit
  if digits.isEmpty then none else some (digits, cs.dropWhile Char.isDigit)

/-- The digits in front of the point: a zero stands alone. -/
def whole? (cs : List Char) : Option (List Char × List Char) :=
  (digits? cs).filter fun (digits, _) => !(digits.head? = some '0' && 1 < digits.length)

/-- The digits behind the point, if there is a point. -/
def fraction? : List Char → Option (List Char × List Char)
  | '.' :: rest => digits? rest
  | cs => some ([], cs)

/-- The sign of an exponent, and what follows it. -/
def exponentSign : List Char → Bool × List Char
  | '-' :: rest => (true, rest)
  | '+' :: rest => (false, rest)
  | cs => (false, cs)

/-- The exponent, if there is one. -/
def exponent? : List Char → Option (Option Int × List Char)
  | [] => some (none, [])
  | c :: cs =>
      if c = 'e' ∨ c = 'E' then do
        let (negative, cs) := exponentSign cs
        let (digits, rest) ← digits? cs
        let n : Int := Decimal.value digits
        return (some (if negative then -n else n), rest)
      else some (none, c :: cs)

/-- The sign of a number, and what follows it. -/
def sign : List Char → Bool × List Char
  | '-' :: rest => (true, rest)
  | cs => (false, cs)

/-- The number at the start, and what follows it. -/
def scan (cs : List Char) : Option (Number × List Char) := do
  let (negative, cs) := sign cs
  let (whole, cs) ← whole? cs
  let (fraction, cs) ← fraction? cs
  let (exponent, rest) ← exponent? cs
  return ({ negative, whole, fraction, exponent }, rest)

/-! ## The range of doubles -/

/-- The number of the leading digits, as many as 64 bits hold, behind those that stand for `n`, and
how many digits are left. -/
def leading (n : Nat) : List Char → Nat × Nat
  | [] => (n, 0)
  | c :: cs =>
      let longer := 10 * n + Decimal.value [c]
      if longer < 2 ^ 64 then leading longer cs else (n, cs.length + 1)

/-- The double nearest to a natural number; of two equally near ones the even one. -/
def nearestDouble (n : Nat) : Nat :=
  let step := 2 ^ (n.log2 - 52)
  let quotient := n / step
  let rest := n % step
  let up := step < 2 * rest ∨ (2 * rest = step ∧ quotient % 2 = 1)
  (if up then quotient + 1 else quotient) * step

/-- The least natural number that is too large for a double. -/
def doubleLimit : Nat := 2 ^ 1024 - 2 ^ 970

/-- Whether the product of the leading digits and the power of ten behind them, each taken as a
double, is a double. -/
def isFinite (n : Number) : Bool :=
  let digits := n.whole ++ n.fraction
  let (significand, left) := leading 0 digits
  let scale := n.exponent.getD 0 - n.fraction.length + left
  significand = 0 || scale ≤ 0 ||
    (scale ≤ 308 && nearestDouble significand * nearestDouble (10 ^ scale.toNat) < doubleLimit)

/-! ## Meaning -/

/-- What a number says. -/
def data (n : Number) : Data :=
  let magnitude : Int := Decimal.value (n.whole ++ n.fraction)
  let mantissa := if n.negative then -magnitude else magnitude
  match n.fraction, n.exponent with
  | [], none => .int mantissa
  | fraction, exponent => .real mantissa (exponent.getD 0 - fraction.length)

/-! ## Progress -/

theorem length_digits? {cs digits rest : List Char} (h : digits? cs = some (digits, rest)) :
    rest.length < cs.length := by
  simp only [digits?] at h
  split at h
  · simp at h
  · next hne =>
      cases h
      have hsum := congrArg List.length (List.takeWhile_append_dropWhile (p := Char.isDigit) (l := cs))
      have hpos : (cs.takeWhile Char.isDigit).length ≠ 0 := by
        simpa using hne
      rw [List.length_append] at hsum
      omega

theorem length_fraction? {cs digits rest : List Char} (h : fraction? cs = some (digits, rest)) :
    rest.length ≤ cs.length := by
  unfold fraction? at h
  split at h
  · have := length_digits? h
    simp only [List.length_cons]
    omega
  · cases h
    exact Nat.le_refl _

theorem length_exponentSign (cs : List Char) : (exponentSign cs).2.length ≤ cs.length := by
  unfold exponentSign
  split <;> simp

theorem length_sign (cs : List Char) : (sign cs).2.length ≤ cs.length := by
  unfold sign
  split <;> simp

theorem length_exponent? {cs rest : List Char} {e : Option Int}
    (h : exponent? cs = some (e, rest)) : rest.length ≤ cs.length := by
  cases cs with
  | nil =>
      cases h
      exact Nat.le_refl _
  | cons c cs =>
      rw [exponent?] at h
      split at h
      · have hsign := length_exponentSign cs
        cases hdigits : digits? (exponentSign cs).2 with
        | none => simp [hdigits] at h
        | some part =>
            have hpart : digits? (exponentSign cs).2 = some (part.1, part.2) := hdigits
            have := length_digits? hpart
            simp only [hdigits, Option.bind_eq_bind, Option.bind_some, Option.pure_def,
              Option.some.injEq, Prod.mk.injEq] at h
            rw [← h.2, List.length_cons]
            omega
      · cases h
        exact Nat.le_refl _

/-- A number takes at least one character. -/
theorem length_scan {cs rest : List Char} {n : Number} (h : scan cs = some (n, rest)) :
    rest.length < cs.length := by
  have hsign := length_sign cs
  simp only [scan, Option.bind_eq_bind, Option.pure_def, Option.bind_eq_some_iff, Prod.exists,
    Option.some.injEq, Prod.mk.injEq] at h
  obtain ⟨whole, cs₁, hwhole, fraction, cs₂, hfraction, e, cs₃, hexponent, -, rfl⟩ := h
  have hdigits : digits? (sign cs).2 = some (whole, cs₁) := (Option.filter_eq_some_iff.mp hwhole).1
  have := length_digits? hdigits
  have := length_fraction? hfraction
  have := length_exponent? hexponent
  omega

end Number

end BlockHost.Json
