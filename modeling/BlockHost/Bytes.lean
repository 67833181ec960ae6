import BlockHost.Numbers

/-!
# Bytes

Buffers and messages are lists of bytes. This module holds what the rest of the library does to
them: words written least significant byte first, reading such a word back, replacing a range of a
buffer, and rounding a length up to the eight-byte grid on which messages lie.

The word laws are `toNat_ofNat` (writing a word and reading it keeps its value modulo its width) and
`length_ofNat`; `length_overwrite` says that replacing a range keeps the length.
-/

namespace BlockHost

/-- A run of bytes. -/
abbrev Bytes := List UInt8

namespace Bytes

/-! ## Words -/

/-- The `width` low bytes of `n`, least significant first. -/
def ofNat : (width : Nat) → Nat → Bytes
  | 0, _ => []
  | width + 1, n => UInt8.ofNat n :: ofNat width (n / 256)

/-- The number that bytes stand for, least significant first. -/
def toNat : Bytes → Nat
  | [] => 0
  | b :: bs => b.toNat + 256 * toNat bs

@[simp] theorem length_ofNat (width n : Nat) : (ofNat width n).length = width := by
  induction width generalizing n with
  | zero => rfl
  | succ width ih => simp [ofNat, ih]

theorem toNat_ofNat (width n : Nat) : toNat (ofNat width n) = n % 256 ^ width := by
  induction width generalizing n with
  | zero => simp [ofNat, toNat, Nat.mod_one]
  | succ width ih =>
      simp only [ofNat, toNat, ih, UInt8.toNat_ofNat']
      have h : 256 ^ (width + 1) = 256 * 256 ^ width := Nat.pow_succ'
      rw [h, Nat.mod_mul]

theorem toNat_lt (bs : Bytes) : toNat bs < 256 ^ bs.length := by
  induction bs with
  | nil => simp [toNat]
  | cons b bs ih =>
      have hb := b.toNat_lt
      simp only [toNat, List.length_cons, Nat.pow_succ]
      omega

/-- A 32-bit word, least significant byte first. -/
def word32 (v : UInt32) : Bytes :=
  ofNat 4 v.toNat

/-- A 64-bit word, least significant byte first. -/
def word64 (v : UInt64) : Bytes :=
  ofNat 8 v.toNat

/-- A time or another signed 64-bit number, as the word of its two's complement. -/
def int64 (v : Int64) : Bytes :=
  word64 v.toUInt64

@[simp] theorem length_word32 (v : UInt32) : (word32 v).length = 4 := by
  simp [word32]

@[simp] theorem length_word64 (v : UInt64) : (word64 v).length = 8 := by
  simp [word64]

@[simp] theorem length_int64 (v : Int64) : (int64 v).length = 8 := by
  simp [int64]

/-! ## Reading -/

/-- The `len` bytes from `start` on, when all of them are there. -/
def slice? (bs : Bytes) (start len : Nat) : Option Bytes :=
  let part := (bs.drop start).take len
  if part.length = len then some part else none

/-- The 32-bit word at `start`. -/
def word32At? (bs : Bytes) (start : Nat) : Option UInt32 :=
  (bs.slice? start 4).map fun part => UInt32.ofNat (toNat part)

/-- The 64-bit word at `start`. -/
def word64At? (bs : Bytes) (start : Nat) : Option UInt64 :=
  (bs.slice? start 8).map fun part => UInt64.ofNat (toNat part)

/-- The signed 64-bit number at `start`. -/
def int64At? (bs : Bytes) (start : Nat) : Option Int64 :=
  (bs.word64At? start).map UInt64.toInt64

theorem slice?_append (before part after : Bytes) :
    slice? (before ++ part ++ after) before.length part.length = some part := by
  simp [slice?]

/-- A word that was written is read back where it stands. -/
theorem word32At?_append (before after : Bytes) (v : UInt32) :
    word32At? (before ++ word32 v ++ after) before.length = some v := by
  have h := slice?_append before (word32 v) after
  rw [length_word32] at h
  rw [word32At?, h]
  simp only [Option.map_some, word32, toNat_ofNat, Option.some.injEq]
  apply UInt32.toNat_inj.mp
  have := v.toNat_lt
  simp only [UInt32.toNat_ofNat']
  omega

theorem word64At?_append (before after : Bytes) (v : UInt64) :
    word64At? (before ++ word64 v ++ after) before.length = some v := by
  have h := slice?_append before (word64 v) after
  rw [length_word64] at h
  rw [word64At?, h]
  simp only [Option.map_some, word64, toNat_ofNat, Option.some.injEq]
  apply UInt64.toNat_inj.mp
  have := v.toNat_lt
  simp only [UInt64.toNat_ofNat']
  omega

theorem int64At?_append (before after : Bytes) (v : Int64) :
    int64At? (before ++ int64 v ++ after) before.length = some v := by
  rw [int64At?, int64, word64At?_append]
  simp

/-! ## Writing -/

/-- `bs` with the bytes from `start` on replaced by `patch`, as far as they are there. -/
def overwrite (bs : Bytes) (start : Nat) (patch : Bytes) : Bytes :=
  let rest := bs.drop start
  bs.take start ++ patch.take (rest.take patch.length).length ++ rest.drop patch.length

@[simp] theorem length_overwrite (bs : Bytes) (start : Nat) (patch : Bytes) :
    (bs.overwrite start patch).length = bs.length := by
  simp only [overwrite, List.length_append, List.length_take, List.length_drop]
  omega

/-- Inside the bytes the whole of `patch` is put in. -/
theorem overwrite_eq {bs : Bytes} {start : Nat} {patch : Bytes}
    (h : start + patch.length ≤ bs.length) :
    bs.overwrite start patch = bs.take start ++ patch ++ bs.drop (start + patch.length) := by
  have hlen : min patch.length (bs.length - start) = patch.length := by omega
  simp [overwrite, hlen]

/-- A run of zero bytes. -/
def zeros (n : Nat) : Bytes :=
  List.replicate n 0

@[simp] theorem length_zeros (n : Nat) : (zeros n).length = n := by
  simp [zeros]

end Bytes

/-! ## The eight-byte grid -/

/-- The least multiple of eight that is at least `n`. -/
def padded (n : Nat) : Nat :=
  (n + 7) / 8 * 8

theorem le_padded (n : Nat) : n ≤ padded n := by
  unfold padded
  omega

theorem padded_lt (n : Nat) : padded n < n + 8 := by
  unfold padded
  omega

theorem padded_mod (n : Nat) : padded n % 8 = 0 := by
  unfold padded
  omega

end BlockHost
