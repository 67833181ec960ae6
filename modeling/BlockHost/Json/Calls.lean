import BlockHost.Heap.Call
import BlockHost.Json.Basic
import BlockHost.Writer.Call

/-!
# Calls in JSON

A call on a writer or on a heap is written as a list: its name, and then what it is given.
-/

namespace BlockHost

open Json (Data)

/-- A number for a writer, of the given kind. -/
def Scalar.ofData? (kind : String) (d : Data) : Option Scalar :=
  match kind with
  | "int" => d.int32?.map .int
  | "long" => d.int64?.map .long
  | "float" => d.word?.map fun n => .float (UInt32.ofNat n)
  | "double" => d.word?.map fun n => .double (UInt64.ofNat n)
  | "bool" => d.bool?.map .bool
  | "urid" => d.uint32?.map .urid
  | _ => none

/-- A call on a writer. -/
def Writer.Call.ofData? (d : Data) : Option Writer.Call := do
  let a := d.item 1
  let b := d.item 2
  let name ← (d.item 0).text?
  match name with
  | "string" => return .string (← a.text?)
  | "path" => return .path (← a.text?)
  | "uri" => return .uri (← a.text?)
  | "literal" => return .literal (← a.text?) (← b.uint32?) (← (d.item 3).uint32?)
  | "chunk" => return .chunk (← a.bytes?)
  | "typed" => return .typed (← a.uint32?) (← b.bytes?)
  | "raw" => return .raw (← a.bytes?)
  | "pad" => return .pad
  | "key" => return .key (← a.uint32?) (← b.uint32?)
  | "time" => return .time (← a.int64?)
  | "scalar" => return .scalar (← Scalar.ofData? (← a.text?) b)
  | "atom" => return .copy (← a.bytes?)
  | "body" => return .typed (← a.uint32?) (← b.bytes?)
  | "tuple" => return .openTuple
  | "sequence" => return .openSequence
  | "object" => return .openObject (← a.uint32?) (← b.uint32?)
  | "vector" => return .openVector (← a.uint32?) (← b.uint32?)
  | "close" => return .close (← a.nat?)
  | "zero_times" => return .restartTimes (← a.nat?)
  | "reset" => return .reset
  | "finish" => return .finish
  | "written" => return .written
  | name => return .scalar (← Scalar.ofData? name a)

/-- A call on a heap, on a system that answers as the given one. -/
def Heap.Call.ofData? (supply : Supply) (d : Data) : Option Heap.Call := do
  let a := d.item 1
  let b := d.item 2
  let c := d.item 3
  let name ← (d.item 0).text?
  match name with
  | "alloc" => return .allocate (← a.nat?)
  | "realloc" => return .reallocate (← a.nat?) (← b.nat?) (← c.nat?)
  | "resize" =>
      let pointer ← if a.isNull then pure none else a.nat?.map some
      return .resize pointer (← b.nat?) (← c.nat?)
  | "free" => return .free (← a.nat?) (← b.nat?)
  | "usable" => return .payloadSize (← a.nat?)
  | "read" => return .read (← a.nat?) (← b.nat?)
  | "write" => return .write (← a.nat?) (← b.bytes?)
  | "commit" => return .commit supply (← a.uint32?) (← b.nat?)
  | "abandon" => return .giveUpGrowth
  | "info" => return .limits
  | "pop" => return .takeRequest
  | "serve" => return .serveRequest supply
  | _ => none

end BlockHost
