import BlockHost.Json.Number
import BlockHost.Json.Text

/-!
# Tokens of JSON

The marks, words, numbers and texts that a JSON text consists of, between blanks. A token ends where
no longer one can be read, so that nothing has to stand between two of them.
-/

namespace BlockHost.Json

/-- A token. -/
inductive Token where
  | openList
  | closeList
  | openObject
  | closeObject
  | comma
  | colon
  | null
  | bool (b : Bool)
  | number (n : Number)
  | text (s : String)
deriving DecidableEq, Repr

namespace Token

/-- Whether a character may stand between tokens. -/
def isBlank (c : Char) : Bool :=
  c = ' ' || c = '\t' || c = '\n' || c = '\r'

/-- The token that is one mark. -/
def mark? : Char → Option Token
  | '[' => some openList
  | ']' => some closeList
  | '\x7b' => some openObject
  | '\x7d' => some closeObject
  | ',' => some comma
  | ':' => some colon
  | _ => none

/-- The word at the start, and what follows it. -/
def word? : List Char → Option (Token × List Char)
  | 'n' :: 'u' :: 'l' :: 'l' :: rest => some (null, rest)
  | 't' :: 'r' :: 'u' :: 'e' :: rest => some (bool true, rest)
  | 'f' :: 'a' :: 'l' :: 's' :: 'e' :: rest => some (bool false, rest)
  | _ => none

/-- The text behind an opening quote, and what follows it. -/
def text? (cs : List Char) : Option (Token × List Char) := do
  let (written, rest) ← Piece.scan cs
  let s ← Piece.text? written
  return (text s, rest)

/-- The number at the start, and what follows it. -/
def number? (cs : List Char) : Option (Token × List Char) := do
  let (n, rest) ← Number.scan cs
  if n.isFinite then some (number n, rest) else none

/-- The token at the start, and what follows it. -/
def scan : List Char → Option (Token × List Char)
  | [] => none
  | c :: rest =>
      match mark? c with
      | some t => some (t, rest)
      | none =>
          if c = '"' then text? rest
          else
            match word? (c :: rest) with
            | some found => some found
            | none => number? (c :: rest)

theorem length_word? {cs rest : List Char} {t : Token} (h : word? cs = some (t, rest)) :
    rest.length < cs.length := by
  unfold word? at h
  split at h <;> cases h <;> simp only [List.length_cons] <;> omega

theorem length_text? {cs rest : List Char} {t : Token} (h : text? cs = some (t, rest)) :
    rest.length < cs.length := by
  simp only [text?, Option.bind_eq_bind, Option.pure_def, Option.bind_eq_some_iff, Prod.exists,
    Option.some.injEq, Prod.mk.injEq] at h
  obtain ⟨written, after, hscan, s, -, -, rfl⟩ := h
  exact Piece.length_scan hscan

theorem length_number? {cs rest : List Char} {t : Token} (h : number? cs = some (t, rest)) :
    rest.length < cs.length := by
  simp only [number?, Option.bind_eq_bind, Option.bind_eq_some_iff, Prod.exists] at h
  obtain ⟨n, after, hscan, h⟩ := h
  split at h
  · cases h
    exact Number.length_scan hscan
  · cases h

/-- A token takes at least one character. -/
theorem length_scan {cs rest : List Char} {t : Token} (h : scan cs = some (t, rest)) :
    rest.length < cs.length := by
  cases cs with
  | nil => simp [scan] at h
  | cons c cs =>
      simp only [scan] at h
      split at h
      · cases h
        simp
      · split at h
        · have := length_text? h
          simp only [List.length_cons]
          omega
        · split at h
          · next hword =>
              cases h
              exact length_word? hword
          · exact length_number? h

/-- All tokens of a text. -/
def all? (cs : List Char) : Option (List Token) :=
  match cs with
  | [] => some []
  | c :: rest =>
      if isBlank c then all? rest
      else
        match _h : scan (c :: rest) with
        | none => none
        | some (t, rest) => (all? rest).map (t :: ·)
termination_by cs.length
decreasing_by
  · simp
  · exact length_scan _h

end Token

end BlockHost.Json
