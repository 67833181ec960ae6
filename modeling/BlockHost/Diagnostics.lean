import BlockHost.Text.Bounded

/-!
# Diagnostics

What the host has to tell its user about the script: the last error, the lines traced since they were
last sent, and the source of a script that has just been loaded. After an error that a script cannot
go on from, the script is disabled until another one is loaded.
-/

namespace BlockHost

/-- How many bytes of an error are kept. -/
def errorCapacity : Nat := 1024

/-- How many bytes of trace are kept between two sendings. -/
def traceCapacity : Nat := 4096

/-- What is to be told about a script. -/
structure Diagnostics where
  error : BoundedText errorCapacity
  trace : BoundedText traceCapacity
  /-- Whether the error has still to be sent. -/
  errorPending : Bool
  /-- Whether the source has still to be sent. -/
  codePending : Bool
  /-- Whether the script is disabled. -/
  disabled : Bool
deriving DecidableEq, Repr

namespace Diagnostics

/-- Nothing to be told. -/
def empty : Diagnostics := ⟨.empty, .empty, false, false, false⟩

/-- Takes note of an error, which may disable the script. -/
def record (d : Diagnostics) (text : String) (disabling : Bool) : Diagnostics :=
  { d with error := BoundedText.empty.push text
           errorPending := true
           disabled := d.disabled || disabling }

/-- After everything has been sent. -/
def afterSending (d : Diagnostics) : Diagnostics :=
  { d with codePending := false, errorPending := false, trace := .empty }

/-- After another script has been loaded. -/
def afterLoading (d : Diagnostics) : Diagnostics :=
  { d with error := .empty, errorPending := false, disabled := false, codePending := true }

end Diagnostics

end BlockHost
