import BlockHost.Atom.Value
import BlockHost.Writer.Values

/-!
# Control messages

Beside the events of a block, the host and its user exchange texts: the source of a script, an error,
a line of trace. Such a message is an object of type `message` whose property is the text.
-/

namespace BlockHost

/-- A control message. -/
inductive Message where
  /-- The source of a script. -/
  | code (text : String)
  /-- The text of an error. -/
  | error (text : String)
  /-- A line that a script has traced. -/
  | trace (text : String)
deriving DecidableEq, Repr

namespace Message

/-- The text of a message. -/
def text : Message → String
  | code text => text
  | error text => text
  | trace text => text

/-- The key under which a message has its text. -/
def term : Message → Term
  | code _ => .code
  | error _ => .error
  | trace _ => .trace

/-- The message that a text under a key is. -/
def ofProperty? (v : Vocabulary) (key : UInt32) (text : String) : Option Message :=
  if key = v.id .code then some (code text)
  else if key = v.id .error then some (error text)
  else if key = v.id .trace then some (trace text)
  else none

/-- The message that an atom is: that of the first property which is one. -/
def ofAtom? (s : Schema) (a : Atom) : Option Message :=
  if s.vocabulary.isObject a.type && a.objectType? s == some (s.id .message) then
    (a.children s).findSome? fun
      | (.property key _, child) => (child.text? s).bind (ofProperty? s.vocabulary key)
      | _ => none
  else none

/-- Writes a message as one object. -/
def write (m : Message) : Write Unit := do
  let v := (← get).vocabulary
  let frame ← Writer.openObject 0 (v.id .message)
  Writer.key (v.id m.term) 0
  Writer.string m.text
  Writer.close frame

end Message

end BlockHost
