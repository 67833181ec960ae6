import BlockHost.Json.Token

/-!
# Reading JSON

A text is read token by token. What has been read so far is a value with a hole in it: the lists and
objects that are not closed yet, innermost first, each with what stands in it so far
(`Hole`), and where in the innermost one the reader is (`Progress`). Each token either takes the
reader a step further or is refused, so reading a text is one fold over its tokens.
-/

namespace BlockHost.Json

/-- A list or an object of which one value is still to be read. -/
inductive Hole where
  /-- The next item of a list, behind those already read, the last one first. -/
  | item (before : List Data)
  /-- The field with a name, behind the fields already read, the last one first. -/
  | field (before : List (String × Data)) (name : String)

/-- How far a text has been read, inside lists and objects that are still open. -/
inductive Progress where
  /-- A value comes next. -/
  | value (outer : List Hole)
  /-- A list has been opened. -/
  | listOpened (outer : List Hole)
  /-- Items of a list have been read, the last one first. -/
  | listed (outer : List Hole) (items : List Data)
  /-- An object has been opened. -/
  | objectOpened (outer : List Hole)
  /-- The fields of an object have been read, the last one first, and another one is to follow. -/
  | fieldAnnounced (outer : List Hole) (fields : List (String × Data))
  /-- The name of a field has been read. -/
  | named (outer : List Hole) (fields : List (String × Data)) (name : String)
  /-- Fields of an object have been read, the last one first. -/
  | fielded (outer : List Hole) (fields : List (String × Data))
  /-- Everything has been read. -/
  | finished (d : Data)

namespace Progress

/-- How many lists and objects can be open at a time. -/
def maxDepth : Nat := 127

/-- After a value has been read. -/
def fill (d : Data) : List Hole → Progress
  | [] => finished d
  | .item before :: outer => listed outer (d :: before)
  | .field before name :: outer => fielded outer ((name, d) :: before)

/-- A token where a value can begin. -/
def begin (outer : List Hole) : Token → Option Progress
  | .null => some (fill .null outer)
  | .bool b => some (fill (.bool b) outer)
  | .number n => some (fill n.data outer)
  | .text s => some (fill (.text s) outer)
  | .openList => if outer.length < maxDepth then some (listOpened outer) else none
  | .openObject => if outer.length < maxDepth then some (objectOpened outer) else none
  | _ => none

/-- The next token. -/
def step : Progress → Token → Option Progress
  | value outer, t => begin outer t
  | listOpened outer, .closeList => some (fill (.list []) outer)
  | listOpened outer, t => begin (.item [] :: outer) t
  | listed outer items, .comma => some (value (.item items :: outer))
  | listed outer items, .closeList => some (fill (.list items.reverse) outer)
  | objectOpened outer, .closeObject => some (fill (.object []) outer)
  | objectOpened outer, .text name => some (named outer [] name)
  | fieldAnnounced outer fields, .text name => some (named outer fields name)
  | named outer fields name, .colon => some (value (.field fields name :: outer))
  | fielded outer fields, .comma => some (fieldAnnounced outer fields)
  | fielded outer fields, .closeObject => some (fill (.object fields.reverse) outer)
  | _, _ => none

/-- What has been read, when it is all. -/
def result? : Progress → Option Data
  | finished d => some d
  | _ => none

end Progress

/-- What a JSON text says. -/
def Data.parse (text : String) : Option Data := do
  let tokens ← Token.all? text.toList
  let progress ← tokens.foldlM Progress.step (.value [])
  progress.result?

end BlockHost.Json
