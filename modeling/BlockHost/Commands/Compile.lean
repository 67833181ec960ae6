import BlockHost.Commands.Basic
import BlockHost.Decimal.Digits
import BlockHost.Script.Language
import BlockHost.Text.Blank
import BlockHost.Text.Lines

/-!
# Compiling commands

A source is read line by line. A line holds a command and what it is given, between blank characters;
lines that are empty or begin with two hyphens say nothing. `reserve` is not a command but allocates
memory while the source is being read; when a later line is refused, that memory is given back.
-/

namespace BlockHost.Command

/-- What a line says. -/
inductive Statement where
  | nothing
  | command (c : Command)
  /-- Memory for the script, from the start. -/
  | reserve (size : Nat)
deriving DecidableEq, Repr

/-- Why a line is no statement. -/
inductive LineFailure where
  /-- What the command is given is not a size. -/
  | size (word : String)
  /-- There is no such command. -/
  | unknown (word : String)
  /-- The memory to be reserved is refused. -/
  | reserve (cause : HeapFailure)
deriving DecidableEq, Repr

/-- The wording of an error in the line with a number. -/
def LineFailure.message (number : Nat) (e : LineFailure) : String :=
  "line " ++ toString number ++ ": " ++
    match e with
    | size word => "`" ++ word ++ "` needs a byte count"
    | unknown word => "unknown command `" ++ word ++ "`"
    | reserve cause => "reserve failed: " ++ cause.message

/-- A 64-bit size in decimal digits, with or without a plus sign. -/
def size? (cs : List Char) : Option Nat :=
  let digits :=
    match cs with
    | '+' :: rest => rest
    | cs => cs
  (Decimal.nat? digits).filter (· < 2 ^ 64)

/-- What a line says. -/
def Statement.parse (line : String) : Except LineFailure Statement :=
  match Text.trim line.toList with
  | [] => .ok .nothing
  | '-' :: '-' :: _ => .ok .nothing
  | cs =>
      let (word, rest) := Text.splitWord cs
      let given := Text.trim rest
      let word := String.ofList word
      let sized (statement : Nat → Statement) : Except LineFailure Statement :=
        match size? given with
        | some size => .ok (statement size)
        | none => .error (.size word)
      match word with
      | "echo" => .ok (.command .echo)
      | "count" => .ok (.command .count)
      | "hold" => sized fun size => .command (.hold size)
      | "churn" => sized fun size => .command (.churn size)
      | "reserve" => sized .reserve
      | "trace" => .ok (.command (.trace (String.ofList given)))
      | "flood" => sized fun size => .command (.flood size)
      | "rewind" => .ok (.command .rewind)
      | "fail" => .ok (.command .fail)
      | "panic" => .ok (.command .panic)
      | word => .error (.unknown word)

/-- Gives up compiling at a line: what has been reserved is given back. -/
def refuse {α : Type} (number : Nat) (reserved : List Holding) (cause : LineFailure) :
    EStateM (Stop ScriptFailure) Heap α := fun h =>
  match Heap.releaseAll reserved h with
  | .ok _ h => .error (.refused (.compile (cause.message number))) h
  | .error fault h => .error (.crashed fault) h

/-- The script of the remaining lines, of which the first has a number, behind the steps and the
reserved memory of the lines before them. -/
def assemble (number : Nat) (steps : List Step) (reserved : List Holding) :
    List String → EStateM (Stop ScriptFailure) Heap Program
  | [] => return { steps, reserved, counter := 0 }
  | line :: rest =>
      match Statement.parse line with
      | .error cause => refuse number reserved cause
      | .ok .nothing => assemble (number + 1) steps reserved rest
      | .ok (.command c) =>
          match c with
          | .flood size =>
              match Fault.addressable size with
              | .error fault => throw (.crashed fault)
              | .ok () => assemble (number + 1) (steps ++ [⟨c, none⟩]) reserved rest
          | c => assemble (number + 1) (steps ++ [⟨c, none⟩]) reserved rest
      | .ok (.reserve size) => fun h =>
          match h.allocate size with
          | .ok p h => assemble (number + 1) steps (reserved ++ [(p, size)]) rest h
          | .error (.refused cause) h => refuse number reserved (.reserve cause) h
          | .error (.crashed fault) h => .error (.crashed fault) h

/-- The script of a source. -/
def compile (source : String) : EStateM (Stop ScriptFailure) Heap Program :=
  assemble 1 [] [] (Text.lines source)

end BlockHost.Command
