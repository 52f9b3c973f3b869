import NodeCube.Text

/-!
# Diagnostics

Why the assembler refuses a source, and where.
-/

namespace NodeCube

/-- What is wrong with a source. -/
inductive Complaint where
  | tooManyLines
  | lineTooLong
  | unexpectedToken
  | unknownInstruction (word : Bytes)
  | missingParameter
  | excessParameter
  | invalidTarget
  | invalidValue
  | invalidLabel
  | duplicateLabel
  | undefinedLabel (label : Bytes)
  deriving DecidableEq, Repr

namespace Complaint

def title : Complaint → Bytes
  | .tooManyLines => ascii "Too many lines"
  | .lineTooLong => ascii "Line too long"
  | .unexpectedToken => ascii "Unexpected token"
  | .unknownInstruction _ => ascii "Unknown instruction"
  | .missingParameter => ascii "Missing parameter"
  | .excessParameter => ascii "Excess parameter"
  | .invalidTarget => ascii "Invalid target"
  | .invalidValue => ascii "Invalid value"
  | .invalidLabel => ascii "Invalid label"
  | .duplicateLabel => ascii "Duplicate label"
  | .undefinedLabel _ => ascii "Undefined label"

/-- The title, with the word that is unknown or undefined. A message ends at its first NUL
byte. -/
def message (c : Complaint) : Bytes :=
  match c with
  | .unknownInstruction word | .undefinedLabel word =>
    Text.untilNul (c.title ++ ascii ": " ++ word)
  | _ => c.title

end Complaint

/-- A complaint about a place in the source; lines and columns count from zero. -/
structure Diagnostic where
  complaint : Complaint
  line : Nat
  column : Nat
  deriving DecidableEq, Repr

end NodeCube
