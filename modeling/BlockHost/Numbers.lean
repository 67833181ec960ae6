/-!
# Powers and sums of numbers

A power or a sum of numbers is the one of the core library, also beside a library that has more general
ones. So a definition that speaks of them says the same wherever it is read.
-/

namespace BlockHost

/-- Powers, of natural numbers and of integers. -/
@[default_instance 20000]
instance (priority := 20000) corePow {α : Type} [NatPow α] : Pow α Nat := instPowNat

/-- The sum of no numbers. -/
instance (priority := 20000) coreZero : Zero Nat := Zero.ofOfNat0

end BlockHost
