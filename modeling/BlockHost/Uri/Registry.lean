/-!
# Names and their numbers

Types, keys and messages are named by URIs and written as small numbers. The registry gives each URI
a number when it first sees it, counting from 1, and never takes a number back; 0 names nothing.

The registry is the list of URIs in order of first sight, so a URI's number is its position there.
-/

namespace BlockHost

/-- The URIs seen, in order of first sight. -/
structure Registry where
  uris : List String
deriving DecidableEq, Repr

namespace Registry

/-- Before any URI is seen. -/
def empty : Registry := ⟨[]⟩

/-- How many URIs have a number. -/
def size (r : Registry) : Nat := r.uris.length

/-- The number of a URI that has been seen. -/
def find? (r : Registry) (uri : String) : Option UInt32 :=
  (r.uris.findIdx? (· == uri)).map fun i => UInt32.ofNat (i + 1)

/-- The number of a URI, a new one when the URI is seen for the first time. -/
def intern (r : Registry) (uri : String) : UInt32 × Registry :=
  match r.find? uri with
  | some id => (id, r)
  | none => (UInt32.ofNat (r.size + 1), ⟨r.uris ++ [uri]⟩)

/-- Interns URIs one after the other. -/
def internAll (r : Registry) : List String → List UInt32 × Registry
  | [] => ([], r)
  | uri :: rest =>
      let (id, r) := r.intern uri
      let (ids, r) := r.internAll rest
      (id :: ids, r)

/-- The URI that a number names. -/
def uri? (r : Registry) (id : UInt32) : Option String :=
  if id = 0 then none else r.uris[id.toNat - 1]?

end Registry

end BlockHost
