import NodeCube.Text.Decimal

/-!
# Words

Registers and ports hold sixteen bits in two's complement. Every operation is the exact one on the
integers, reduced once at the end by `wrap`.
-/

namespace NodeCube

/-- A register or port value. -/
abbrev Word := Int16

namespace Word

/-- The word congruent to `i` modulo 2^16. -/
def wrap (i : Int) : Word := Int16.ofInt i

def add (a b : Word) : Word := wrap (a.toInt + b.toInt)

def sub (a b : Word) : Word := wrap (a.toInt - b.toInt)

def neg (a : Word) : Word := wrap (-a.toInt)

/-- Shifts left; a count outside 0 to 15 leaves no bit. -/
def shiftLeft (a count : Word) : Word :=
  if count.toInt < 0 ∨ 15 < count.toInt then 0 else wrap (a.toInt * Int.pow 2 count.toInt.toNat)

/-- Shifts right with the sign; a count outside 0 to 15 leaves only the sign. -/
def shiftRight (a count : Word) : Word :=
  if count.toInt < 0 ∨ 15 < count.toInt then (if a.toInt < 0 then -1 else 0)
  else wrap (a.toInt / Int.pow 2 count.toInt.toNat)

/-- The signed decimal text. -/
def text (a : Word) : Bytes := Text.integer a.toInt

end Word

end NodeCube
