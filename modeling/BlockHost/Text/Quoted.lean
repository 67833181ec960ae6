/-!
# Quoted text

A text between double quotes, with a backslash before what could not stand there as it is: the
quote and the backslash themselves, line feed, carriage return, tab and NUL by letter, and the other
ASCII control characters by code point.
-/

namespace BlockHost.Text

/-- A character as it stands between double quotes. -/
def escaped (c : Char) : List Char :=
  if c = '"' then ['\\', '"']
  else if c = '\\' then ['\\', '\\']
  else if c = '\n' then ['\\', 'n']
  else if c = '\r' then ['\\', 'r']
  else if c = '\t' then ['\\', 't']
  else if c.toNat = 0 then ['\\', '0']
  else if c.toNat < 0x20 ∨ c.toNat = 0x7F then
    ['\\', 'u', '\x7b'] ++ Nat.toDigits 16 c.toNat ++ ['\x7d']
  else [c]

/-- A text between double quotes. -/
def quoted (text : String) : String :=
  String.ofList ('"' :: text.toList.flatMap escaped ++ ['"'])

/-- Quoted texts with a comma and a space between them. -/
def quotedList (texts : List String) : String :=
  ", ".intercalate (texts.map quoted)

end BlockHost.Text
