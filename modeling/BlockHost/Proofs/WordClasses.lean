import BlockHost.Proofs.HeapBlocks

/-!
# The heap's arithmetic on words

The library's heap counts in natural numbers. A heap on an audio device counts in words: a position is
a word of 64 bits, a size in a header and both halves of a pointer are words of 32, and a link holds a
segment and a start in one word of 64, of which one value leads nowhere. There a sum can leave its word,
a difference can fall below zero, a shift can be as wide as the word, and a number can lose its upper
half when it is put into a narrower word.

Here the heap's arithmetic is written step by step as it is done on words, and every step is checked
where it is made (`Halt` says how a step can fail). For the sizes that blocks have, no step fails, and
the classes and links come out as the library has them.
-/

namespace BlockHost.Heap

/-- What ends an operation on words. -/
inductive Words.Halt where
  /-- The operation was refused, or a sum, a difference, an index or a range is not what it has to be. -/
  | stopped (stop : Stop HeapFailure)
  | product
  /-- A word is shifted by as many bits as it has, or by more. -/
  | shift
  | narrowing
  /-- A link does not say where it leads, or leads nowhere although it should not. -/
  | link

/-- An operation on the heap that counts in words. -/
abbrev WordAction := EStateM Words.Halt Heap

namespace Words

/-- How an operation of the library ends. -/
def ended {α : Type} : EStateM.Result (Stop HeapFailure) Heap α → EStateM.Result Halt Heap α
  | .ok a h => .ok a h
  | .error stop h => .error (.stopped stop) h

/-- An operation of the library, as one step. -/
def plain {α : Type} (x : HeapAction α) : WordAction α :=
  fun h => ended (x h)

section Plain

variable {α β : Type} {x : HeapAction α} {h h' : Heap} {a : α} {stop : Stop HeapFailure}

theorem plain_ok (hx : x h = .ok a h') : plain x h = .ok a h' :=
  congrArg ended hx

theorem plain_error (hx : x h = .error stop h') : plain x h = .error (.stopped stop) h' :=
  congrArg ended hx

theorem plain_bind (x : HeapAction α) (f : α → HeapAction β) :
    plain (x >>= f) = plain x >>= fun a => plain (f a) := by
  funext h
  cases hx : x h with
  | ok a h' =>
      rw [Action.bind_ok (plain_ok hx)]
      exact congrArg ended (Action.bind_ok hx)
  | error stop h' =>
      rw [Action.bind_error (plain_error hx)]
      exact plain_error (Action.bind_error hx)

/-- Two operations go together when their first parts do, and then what follows in the state that the
first part leaves. -/
theorem bind_eq {x' : WordAction α} {f : α → HeapAction β} {f' : α → WordAction β}
    (hx : x' h = plain x h) (hf : ∀ a h', x h = .ok a h' → f' a h' = plain (f a) h') :
    (x' >>= f') h = plain (x >>= f) h := by
  cases hrun : x h with
  | ok a h' =>
      rw [Action.bind_ok (hx.trans (plain_ok hrun)), hf a h' hrun]
      exact congrArg ended (Action.bind_ok hrun).symm
  | error stop h' =>
      rw [Action.bind_error (hx.trans (plain_error hrun))]
      exact (plain_error (Action.bind_error hrun)).symm

end Plain

/-! ## Steps -/

/-- A sum of words. -/
def add (a b : Nat) : WordAction Nat :=
  if a + b < 2 ^ 64 then return a + b else throw (.stopped (.crashed .addition))

/-- A difference of words. -/
def sub (a b : Nat) : WordAction Nat :=
  if b ≤ a then return a - b else throw (.stopped (.crashed .subtraction))

/-- A product of words. -/
def mul (a b : Nat) : WordAction Nat :=
  if a * b < 2 ^ 64 then return a * b else throw .product

/-- Checks how far a word of some width is shifted. -/
def checkShift (width amount : Nat) : WordAction Unit :=
  if amount < width then return () else throw .shift

/-- A word of 64 bits shifted to the left. What is shifted out of it is lost. -/
def shiftLeft (n amount : Nat) : WordAction Nat := do
  checkShift 64 amount
  return (n <<< amount) % 2 ^ 64

/-- A word of 64 bits put into 32. -/
def narrow (n : Nat) : WordAction Nat :=
  if n < 2 ^ 32 then return n else throw .narrowing

section Steps

variable {a b n amount width : Nat}

theorem add_eq (h : a + b < 2 ^ 64) : add a b = pure (a + b) :=
  if_pos h

theorem sub_eq (h : b ≤ a) : sub a b = pure (a - b) :=
  if_pos h

theorem mul_eq (h : a * b < 2 ^ 64) : mul a b = pure (a * b) :=
  if_pos h

theorem checkShift_eq (h : amount < width) : checkShift width amount = pure () :=
  if_pos h

theorem narrow_eq (h : n < 2 ^ 32) : narrow n = pure n :=
  if_pos h

/-- A shift by which nothing is lost is a product. -/
theorem shiftLeft_eq (hamount : amount < 64) (h : n * 2 ^ amount < 2 ^ 64) :
    shiftLeft n amount = pure (n * 2 ^ amount) := by
  rw [shiftLeft, checkShift_eq hamount, pure_bind, Nat.shiftLeft_eq, Nat.mod_eq_of_lt h]

end Steps

/-! ## Classes -/

/-- How many zeros stand before the first one in a word of 64 bits. -/
def leadingZeros (n : Nat) : Nat :=
  if n = 0 then 64 else 63 - Nat.log2 n

/-- The greatest class that is not above a size. -/
def classFloor (size : Nat) : WordAction SizeClass := do
  let power ← sub 63 (leadingZeros size)
  let amount ← sub power 2
  checkShift 64 amount
  let quarter := size >>> amount &&& 3
  let row ← sub power SizeClass.firstPower
  let first ← mul row 4
  let n ← add first quarter
  return ⟨min n (classCount - 1), by unfold classCount; omega⟩

/-- The least size of a class. -/
def classLower (c : SizeClass) : WordAction Nat := do
  let power ← narrow (c.val / 4 + SizeClass.firstPower)
  let whole ← shiftLeft 1 power
  let amount ← sub power 2
  let part ← shiftLeft (c.val % 4) amount
  add whole part

/-- The least class whose blocks are all large enough for a size, if there is one. -/
def classCeil (size : Nat) : WordAction (Option SizeClass) := do
  let c ← classFloor size
  let lower ← classLower c
  if size ≤ lower then return some c
  let next ← add c.val 1
  return if h : next < classCount then some ⟨next, h⟩ else none

section Classes

variable {size : Nat}

theorem classFloor_eq (hlow : leastBlock ≤ size) (hhigh : size < 2 ^ 32) :
    classFloor size = pure (SizeClass.floor size) := by
  have hne : size ≠ 0 := by
    unfold leastBlock at hlow
    omega
  -- The first bit is one of those from the sixth on, so no difference below falls under zero.
  have hlog5 : 5 ≤ Nat.log2 size := (Nat.le_log2 hne).2 hlow
  have hlog32 : Nat.log2 size < 32 := (Nat.log2_lt hne).2 hhigh
  have hpower : 63 - leadingZeros size = Nat.log2 size := by
    rw [leadingZeros, if_neg hne]
    omega
  have hquarter : size >>> (Nat.log2 size - 2) &&& 3 = size / 2 ^ (Nat.log2 size - 2) % 4 := by
    rw [Nat.shiftRight_eq_div_pow]
    exact Nat.and_two_pow_sub_one_eq_mod _ 2
  rw [classFloor, sub_eq (by rw [leadingZeros, if_neg hne]; omega), pure_bind, hpower,
    sub_eq (by omega), pure_bind, checkShift_eq (by omega), pure_bind,
    sub_eq (by unfold SizeClass.firstPower; omega), pure_bind, mul_eq (by omega), pure_bind]
  simp only [hquarter]
  rw [add_eq (by omega), pure_bind]
  rfl

/-- A size below that of the least block has no class. -/
example (h : Heap) : classFloor 16 h = .error (.stopped (.crashed .subtraction)) h := rfl

theorem classLower_eq (c : SizeClass) : classLower c = pure c.lower := by
  have hc : c.val < 128 := c.isLt
  have hpower : c.val / 4 + SizeClass.firstPower ≤ 36 := by
    unfold SizeClass.firstPower
    omega
  have hwhole : 2 ^ (c.val / 4 + SizeClass.firstPower) ≤ 2 ^ 36 :=
    Nat.pow_le_pow_right (by omega) hpower
  have hpart : c.val % 4 * 2 ^ (c.val / 4 + SizeClass.firstPower - 2) ≤ 3 * 2 ^ 34 :=
    Nat.mul_le_mul (by omega) (Nat.pow_le_pow_right (by omega) (by omega))
  rw [classLower, narrow_eq (by omega), pure_bind, shiftLeft_eq (by omega) (by omega), pure_bind,
    sub_eq (by unfold SizeClass.firstPower; omega), pure_bind,
    shiftLeft_eq (by omega) (by omega), pure_bind, Nat.one_mul]
  exact add_eq (by omega)

theorem classCeil_eq (hlow : leastBlock ≤ size) (hhigh : size < 2 ^ 32) :
    classCeil size = pure (SizeClass.ceil size) := by
  rw [classCeil, classFloor_eq hlow hhigh, pure_bind, classLower_eq, pure_bind, SizeClass.ceil]
  split
  · rfl
  · have hlt : (SizeClass.floor size).val < 128 := (SizeClass.floor size).isLt
    rw [add_eq (by omega), pure_bind]

end Classes

/-! ## Links -/

/-- The link to a block. It leads there and nowhere else. -/
def encode (position start : Nat) : WordAction Nat := do
  let high ← shiftLeft position 32
  let first := high ||| start
  if linkSegment first = position ∧ linkStart first = start ∧ first ≠ noLink then return first
  else throw .link

/-- Where a link leads. No other place has this link. -/
def decode (first : Nat) : WordAction (Nat × Nat) :=
  if first ≠ noLink ∧ link (linkSegment first) (linkStart first) = first then
    return (linkSegment first, linkStart first)
  else throw .link

section Links

variable {position start first : Nat}

theorem encode_eq (hposition : position < 16) (hstart : start < 2 ^ 32) :
    encode position start = pure (link position start) := by
  have hword : position * 2 ^ 32 ||| start = link position start := by
    rw [link, Nat.shiftLeft_eq]
  have hlt : link position start ≠ noLink := by
    rw [link_eq hstart, noLink]
    omega
  rw [encode, shiftLeft_eq (by omega) (by omega), pure_bind, hword]
  exact if_pos ⟨linkSegment_link hstart, linkStart_link hstart, hlt⟩

/-- A segment and a start that fill their words have the link that leads nowhere. -/
example (h : Heap) : encode (2 ^ 32 - 1) (2 ^ 32 - 1) h = .error .link h := rfl

theorem linkStart_lt (first : Nat) : linkStart first < 2 ^ 32 :=
  Nat.mod_lt _ (by decide)

theorem link_link (first : Nat) : link (linkSegment first) (linkStart first) = first := by
  rw [link_eq (linkStart_lt first), linkSegment, linkStart, Nat.shiftRight_eq_div_pow]
  exact Nat.div_add_mod' first (2 ^ 32)

theorem decode_eq (hfirst : first ≠ noLink) :
    decode first = pure (linkSegment first, linkStart first) :=
  if_pos ⟨hfirst, link_link first⟩

end Links

end Words

end BlockHost.Heap
