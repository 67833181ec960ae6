import BlockHost.Text.Hex

/-!
# Texts in JSON

A text stands between quotes. A backslash announces a character by a letter, or a UTF-16 unit by four
hexadecimal digits; a character beyond the first 65536 takes two units in a row, and no unit of such a
pair stands alone. Control characters have to be announced.
-/

namespace BlockHost.Json

/-- A part of a text as it is written. -/
inductive Piece where
  | char (c : Char)
  /-- A UTF-16 unit. -/
  | unit (n : Nat)
deriving DecidableEq, Repr

namespace Piece

/-- The characters up to the closing quote as they are written, and what follows the quote. -/
def scan : List Char → Option (List Char × List Char)
  | [] => none
  | '"' :: rest => some ([], rest)
  | '\\' :: c :: rest => do
      let (written, rest) ← scan rest
      return ('\\' :: c :: written, rest)
  | c :: rest => do
      let (written, rest) ← scan rest
      return (c :: written, rest)

/-- The character that a letter behind a backslash announces. -/
def named? : Char → Option Char
  | '"' => some '"'
  | '\\' => some '\\'
  | '/' => some '/'
  | 'b' => some (Char.ofNat 0x08)
  | 'f' => some (Char.ofNat 0x0C)
  | 'n' => some '\n'
  | 'r' => some '\r'
  | 't' => some '\t'
  | _ => none

/-- The number that hexadecimal digits of either case stand for. -/
def number? (digits : List Char) : Option Nat :=
  digits.foldlM (fun n c => (Hex.value? c.toLower).map (16 * n + ·)) 0

/-- Whether a character can stand for itself. -/
def isPlain (c : Char) : Bool :=
  c ≠ '\\' && 0x20 ≤ c.toNat

/-- The pieces of a text. -/
def parse : List Char → Option (List Piece)
  | [] => some []
  | '\\' :: 'u' :: a :: b :: c :: d :: rest => do
      let n ← number? [a, b, c, d]
      return unit n :: (← parse rest)
  | '\\' :: letter :: rest => do
      let c ← named? letter
      return char c :: (← parse rest)
  | c :: rest => if isPlain c then (parse rest).map (char c :: ·) else none

/-- Whether a unit is the first one of a pair. -/
def isLead (n : Nat) : Bool :=
  0xD800 ≤ n && n ≤ 0xDBFF

/-- Whether a unit is the second one of a pair. -/
def isTrail (n : Nat) : Bool :=
  0xDC00 ≤ n && n ≤ 0xDFFF

/-- The character of a pair of units. -/
def paired (lead trail : Nat) : Char :=
  Char.ofNat (0x10000 + (lead - 0xD800) * 0x400 + (trail - 0xDC00))

/-- The characters that pieces stand for. -/
def join : List Piece → Option (List Char)
  | [] => some []
  | char c :: rest => (join rest).map (c :: ·)
  | unit n :: rest =>
      if isLead n then
        match rest with
        | unit m :: rest => if isTrail m then (join rest).map (paired n m :: ·) else none
        | _ => none
      else if isTrail n then none
      else (join rest).map (Char.ofNat n :: ·)

/-- The text that is written so between quotes. -/
def text? (written : List Char) : Option String := do
  let pieces ← parse written
  let cs ← join pieces
  return String.ofList cs

/-- The closing quote is taken too. -/
theorem length_scan {cs written rest : List Char} (h : scan cs = some (written, rest)) :
    rest.length < cs.length := by
  fun_induction scan cs generalizing written with
  | case1 => simp at h
  | case2 rest' =>
      cases h
      simp
  | case3 c rest' ih =>
      simp only [Option.bind_eq_bind, Option.pure_def, Option.bind_eq_some_iff, Prod.exists,
        Option.some.injEq, Prod.mk.injEq] at h
      obtain ⟨inner, after, hinner, -, rfl⟩ := h
      have := ih hinner
      simp only [List.length_cons]
      omega
  | case4 c rest' _ _ ih =>
      simp only [Option.bind_eq_bind, Option.pure_def, Option.bind_eq_some_iff, Prod.exists,
        Option.some.injEq, Prod.mk.injEq] at h
      obtain ⟨inner, after, hinner, -, rfl⟩ := h
      have := ih hinner
      simp only [List.length_cons]
      omega

end Piece

end BlockHost.Json
