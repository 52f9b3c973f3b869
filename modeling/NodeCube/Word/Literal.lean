import NodeCube.Text.Numeral
import NodeCube.Word

/-!
# Number literals

A literal is an optional sign and then decimal digits, or `0x` and hexadecimal digits. It stands
for its value modulo 2^16 if that lies between -32768 and 65535, so a word can be written signed
or unsigned.
-/

namespace NodeCube.Word

/-- The word a literal denotes, if it fits signed or unsigned. What its digits amount to is bounded
while they are read, before the sign counts. -/
def ofLiteral? (s : Bytes) : Option Word :=
  let (negative, unsigned) := Text.splitSign s
  let (radix, digits) := Text.Radix.split unsigned
  if digits.isEmpty then none
  else match radix.boundedFrom? 65535 0 digits with
    | none => none
    | some n =>
      let v : Int := if negative then -(n : Int) else n
      if v < -32768 then none else some (wrap v)

/-- Whether an operand is to be read as a literal. -/
def looksLiteral : Bytes → Bool
  | [] => false
  | b :: _ => Text.isDigit b || b == '-'.toUInt8 || b == '+'.toUInt8

end NodeCube.Word
