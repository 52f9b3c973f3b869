import NodeCube.Text.Decimal

/-!
# Snapshot errors

Why the bytes of a snapshot are refused.
-/

namespace NodeCube

inductive SnapshotError where
  /-- The bytes end inside the item that starts at `position`. -/
  | truncated (position : Nat)
  | pipePhase (code : UInt8)
  | lastPort (code : UInt8)
  | version (number : UInt8)
  | trailingBytes
  deriving DecidableEq, Repr

namespace SnapshotError

def message : SnapshotError → Bytes
  | .truncated position => ascii "snapshot truncated at byte " ++ Text.natural position
  | .pipePhase code => ascii "invalid pipe state " ++ Text.natural code.toNat
  | .lastPort code => ascii "invalid LAST port " ++ Text.natural code.toNat
  | .version number => ascii "unsupported snapshot version " ++ Text.natural number.toNat
  | .trailingBytes => ascii "trailing bytes in snapshot"

end SnapshotError

end NodeCube
