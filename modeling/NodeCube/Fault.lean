import NodeCube.Text.Decimal
import NodeCube.Port

/-!
# Faults

What can go wrong while a node runs. A program from the assembler is meant to cause none of them.
-/

namespace NodeCube

inductive Fault where
  /-- A pipe was read with no transfer ready. -/
  | pipeNotReady
  | bakWrite
  | bakRead
  | concurrentWrite (p : Port)
  | concurrentRead (p : Port)
  /-- `ANY` was read with no transfer ready. -/
  | anyNotReady
  /-- `LAST` was read before `ANY` ever chose a port. -/
  | lastUnresolved
  | missingInstruction (pc : Int)
  | unknownLabel (label : Bytes)
  deriving DecidableEq, Repr

namespace Fault

/-- The text of a fault, which ends at its first NUL byte. -/
def message : Fault → Bytes
  | .pipeNotReady => ascii "pipe read without a ready transfer"
  | .bakWrite => ascii "BAK cannot be written to directly."
  | .bakRead => ascii "BAK cannot be read from directly."
  | .concurrentWrite p => ascii "concurrent write on port " ++ p.name
  | .concurrentRead p => ascii "concurrent read on port " ++ p.name
  | .anyNotReady => ascii "ANY read without a ready transfer"
  | .lastUnresolved => ascii "LAST read without a resolved port"
  | .missingInstruction pc => ascii "executed a missing instruction at " ++ Text.integer pc
  | .unknownLabel label => Text.untilNul (ascii "jump to unknown label " ++ label)

end Fault

end NodeCube
