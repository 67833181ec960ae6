import BlockHost.Uri.Registry

/-!
# The vocabulary

The numbers of the URIs that the host itself reads and writes: the seventeen atom types, the two
keys under which a literal shows its datatype and its language, and the four names of the control
messages.

A `Term` is one of these names. A `Vocabulary` says which number each of them has.
-/

namespace BlockHost

/-- A name the host knows. -/
inductive Term where
  | int
  | long
  | float
  | double
  | bool
  | urid
  | string
  | path
  | uri
  | literal
  | tuple
  | object
  | resource
  | blank
  | vector
  | sequence
  | chunk
  | literalDatatype
  | literalLang
  | message
  | code
  | error
  | trace
deriving DecidableEq, Repr

namespace Term

/-- The terms, in the order in which a vocabulary interns them. -/
def all : List Term :=
  [int, long, float, double, bool, urid, string, path, uri, literal, tuple, object, resource, blank,
    vector, sequence, chunk, literalDatatype, literalLang, message, code, error, trace]

/-- The short name of a term. -/
def name : Term → String
  | int => "int"
  | long => "long"
  | float => "float"
  | double => "double"
  | bool => "bool"
  | urid => "urid"
  | string => "string"
  | path => "path"
  | uri => "uri"
  | literal => "literal"
  | tuple => "tuple"
  | object => "object"
  | resource => "resource"
  | blank => "blank"
  | vector => "vector"
  | sequence => "sequence"
  | chunk => "chunk"
  | literalDatatype => "literal_datatype"
  | literalLang => "literal_lang"
  | message => "message"
  | code => "code"
  | error => "error"
  | trace => "trace"

/-- The base of the names that belong to atoms. -/
def atomBase : String := "http://lv2plug.in/ns/ext/atom#"

/-- The base of the names that belong to the host. -/
def hostBase : String := "urn:lunahost#"

/-- The URI of a term. -/
def uriText : Term → String
  | int => atomBase ++ "Int"
  | long => atomBase ++ "Long"
  | float => atomBase ++ "Float"
  | double => atomBase ++ "Double"
  | bool => atomBase ++ "Bool"
  | urid => atomBase ++ "URID"
  | string => atomBase ++ "String"
  | path => atomBase ++ "Path"
  | uri => atomBase ++ "URI"
  | literal => atomBase ++ "Literal"
  | tuple => atomBase ++ "Tuple"
  | object => atomBase ++ "Object"
  | resource => atomBase ++ "Resource"
  | blank => atomBase ++ "Blank"
  | vector => atomBase ++ "Vector"
  | sequence => atomBase ++ "Sequence"
  | chunk => atomBase ++ "Chunk"
  | literalDatatype => atomBase ++ "datatype"
  | literalLang => atomBase ++ "lang"
  | message => hostBase ++ "message"
  | code => hostBase ++ "code"
  | error => hostBase ++ "error"
  | trace => hostBase ++ "trace"

end Term

/-- Which number each term has. -/
structure Vocabulary where
  id : Term → UInt32

namespace Vocabulary

/-- The vocabulary that a registry gives, and the registry that has then seen all of it. -/
def ofRegistry (r : Registry) : Vocabulary × Registry :=
  let (ids, r) := r.internAll (Term.all.map Term.uriText)
  (⟨fun t => ids.getD (Term.all.idxOf t) 0⟩, r)

/-- The vocabulary with another number for one term. -/
def rename (v : Vocabulary) (t : Term) (id : UInt32) : Vocabulary :=
  ⟨fun u => if u = t then id else v.id u⟩

/-- Whether a type is one of the three flavours of object. -/
def isObject (v : Vocabulary) (type : UInt32) : Bool :=
  type == v.id .object || type == v.id .resource || type == v.id .blank

end Vocabulary

end BlockHost
