/-!
# Byte strings

Program text, file names, snapshots and messages are lists of bytes. Text is read as ASCII; a byte
from 128 on is an ordinary character that no rule of this library singles out.
-/

namespace NodeCube

/-- A byte string. -/
abbrev Bytes := List UInt8

/-- The bytes of an ASCII text. -/
def ascii (s : String) : Bytes := s.toList.map Char.toUInt8

end NodeCube
