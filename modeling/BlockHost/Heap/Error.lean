/-!
# Refusals of the heap

What the heap refuses, and how it says so.
-/

namespace BlockHost

/-- Why the heap refuses a call. -/
inductive HeapFailure where
  /-- No block is large enough. -/
  | outOfMemory
  /-- The pointer is not that of a live block. -/
  | invalidPointer
  /-- A region does not have the next index. -/
  | regionOrder (expected got : UInt32)
  /-- A region does not have the size for its index. -/
  | regionSize (index : UInt32) (expected got : Nat)
  /-- There are as many regions as there can be. -/
  | fullyExtended (max : Nat)
deriving DecidableEq, Repr

namespace HeapFailure

/-- The name of a refusal. -/
def name : HeapFailure → String
  | outOfMemory => "OutOfMemory"
  | invalidPointer => "InvalidPointer"
  | regionOrder _ _ => "RegionOrder"
  | regionSize _ _ _ => "RegionSize"
  | fullyExtended _ => "FullyExtended"

/-- The name of a refusal, with that of the heap. -/
def label (e : HeapFailure) : String :=
  "Pool." ++ e.name

/-- The wording of a refusal. -/
def message : HeapFailure → String
  | outOfMemory => "pool exhausted"
  | invalidPointer => "pointer does not reference a live allocation"
  | regionOrder expected got =>
      "region " ++ toString got.toNat ++ " committed out of order, expected "
        ++ toString expected.toNat
  | regionSize index expected got =>
      "region " ++ toString index.toNat ++ " has " ++ toString got ++ " bytes, expected "
        ++ toString expected
  | fullyExtended max => "all " ++ toString max ++ " regions already committed"

end HeapFailure

end BlockHost
