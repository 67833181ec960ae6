import BlockHost.Numbers

/-!
# Size classes

Free blocks are filed by size, in four classes for each power of two. A block is filed under the
greatest class whose least size it reaches (`SizeClass.floor`); a request looks from the least class
on whose every block suffices (`SizeClass.ceil`).
-/

namespace BlockHost

/-- How many classes there are. -/
def classCount : Nat := 128

/-- A class of block sizes. -/
abbrev SizeClass := Fin classCount

/-- The size of the smallest block. -/
def leastBlock : Nat := 32

namespace SizeClass

/-- The power of two at which classes begin, `leastBlock = 2 ^ firstPower`. -/
def firstPower : Nat := 5

/-- The class under which a free block is filed. -/
def floor (size : Nat) : SizeClass :=
  let power := Nat.log2 size
  let quarter := size / 2 ^ (power - 2) % 4
  ⟨min ((power - firstPower) * 4 + quarter) (classCount - 1), by unfold classCount; omega⟩

/-- The least size of the blocks in a class. -/
def lower (c : SizeClass) : Nat :=
  let power := c.val / 4 + firstPower
  2 ^ power + c.val % 4 * 2 ^ (power - 2)

/-- The least class whose every block has at least the given size. -/
def ceil (size : Nat) : Option SizeClass :=
  let c := floor size
  if size ≤ c.lower then some c
  else if h : c.val + 1 < classCount then some ⟨c.val + 1, h⟩
  else none

end SizeClass

end BlockHost
