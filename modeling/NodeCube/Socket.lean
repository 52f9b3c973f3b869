import NodeCube.Face
import NodeCube.Port

/-!
# Sockets

A socket is a port on a face. Across an edge of the cube it meets a socket on a neighbouring face:
its `opposite`. The cube has twelve edges, so the 24 sockets come in pairs.
-/

namespace NodeCube

/-- A port on a face. -/
structure Socket where
  face : Face
  port : Port
  deriving DecidableEq, Repr

namespace Socket

/-- The socket on the other side of the edge. -/
def opposite : Socket → Socket
  | ⟨.yNeg, .left⟩ => ⟨.xNeg, .down⟩
  | ⟨.yNeg, .right⟩ => ⟨.xPos, .down⟩
  | ⟨.yNeg, .up⟩ => ⟨.zPos, .down⟩
  | ⟨.yNeg, .down⟩ => ⟨.zNeg, .down⟩
  | ⟨.yPos, .left⟩ => ⟨.xPos, .up⟩
  | ⟨.yPos, .right⟩ => ⟨.xNeg, .up⟩
  | ⟨.yPos, .up⟩ => ⟨.zPos, .up⟩
  | ⟨.yPos, .down⟩ => ⟨.zNeg, .up⟩
  | ⟨.zNeg, .left⟩ => ⟨.xPos, .right⟩
  | ⟨.zNeg, .right⟩ => ⟨.xNeg, .left⟩
  | ⟨.zNeg, .up⟩ => ⟨.yPos, .down⟩
  | ⟨.zNeg, .down⟩ => ⟨.yNeg, .down⟩
  | ⟨.zPos, .left⟩ => ⟨.xNeg, .right⟩
  | ⟨.zPos, .right⟩ => ⟨.xPos, .left⟩
  | ⟨.zPos, .up⟩ => ⟨.yPos, .up⟩
  | ⟨.zPos, .down⟩ => ⟨.yNeg, .up⟩
  | ⟨.xNeg, .left⟩ => ⟨.zNeg, .right⟩
  | ⟨.xNeg, .right⟩ => ⟨.zPos, .left⟩
  | ⟨.xNeg, .up⟩ => ⟨.yPos, .right⟩
  | ⟨.xNeg, .down⟩ => ⟨.yNeg, .left⟩
  | ⟨.xPos, .left⟩ => ⟨.zPos, .right⟩
  | ⟨.xPos, .right⟩ => ⟨.zNeg, .left⟩
  | ⟨.xPos, .up⟩ => ⟨.yPos, .left⟩
  | ⟨.xPos, .down⟩ => ⟨.yNeg, .right⟩

/-- Sockets counted face by face. -/
def index (s : Socket) : Nat := s.face.index * 4 + s.port.index

@[simp] theorem opposite_opposite (s : Socket) : s.opposite.opposite = s := by
  obtain ⟨f, p⟩ := s
  cases f <;> cases p <;> rfl

theorem opposite_face_ne (s : Socket) : s.opposite.face ≠ s.face := by
  obtain ⟨f, p⟩ := s
  cases f <;> cases p <;> decide

end Socket

end NodeCube
