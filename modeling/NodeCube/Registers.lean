import NodeCube.Word
import NodeCube.Port

/-!
# Registers

What a node remembers from tick to tick beside its program.
-/

namespace NodeCube

structure Registers where
  pc : Int := 0
  acc : Word := 0
  bak : Word := 0
  /-- The port that `ANY` chose last. -/
  last : Option Port := none
  /-- The `MOV` at `pc` has handed its word over and waits for it to be taken. -/
  writeInFlight : Bool := false
  /-- The word that `MOV` to `ANY` holds until some neighbour reads. -/
  anyWrite : Option Word := none
  stalled : Bool := false
  deriving DecidableEq, Repr

namespace Registers

/-- Forgets what a node waits for. -/
def clearRequests (r : Registers) : Registers :=
  { r with writeInFlight := false, anyWrite := none, stalled := false }

end Registers

end NodeCube
