import NodeCube.Text
import NodeCube.Port

/-!
# Targets

What an operand can name: the accumulator, its backup, the null device, a port, or one of the two
pseudo-ports `ANY` and `LAST`.
-/

namespace NodeCube

inductive Target where
  | acc
  | bak
  | nil
  | port (p : Port)
  | any
  | last
  deriving DecidableEq, Repr

namespace Target

def all : List Target :=
  [.acc, .bak, .nil, .port .left, .port .right, .port .up, .port .down, .any, .last]

theorem mem_all (t : Target) : t ∈ all := by
  rcases t with _ | _ | _ | p | _ | _
  case port => cases p <;> decide
  all_goals decide

/-- The place in `all`. -/
def index : Target → Nat
  | .acc => 0
  | .bak => 1
  | .nil => 2
  | .port p => 3 + p.index
  | .any => 7
  | .last => 8

def name : Target → Bytes
  | .acc => ascii "ACC"
  | .bak => ascii "BAK"
  | .nil => ascii "NIL"
  | .port p => p.name
  | .any => ascii "ANY"
  | .last => ascii "LAST"

/-- Reads a target's name, in capital letters; the name ends at the first NUL byte. -/
def ofName? (s : Bytes) : Option Target := all.find? fun t => t.name == Text.untilNul s

/-- The port that a target names by itself. -/
def port? : Target → Option Port
  | .port p => some p
  | _ => none

end Target

end NodeCube
