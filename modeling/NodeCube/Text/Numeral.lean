import NodeCube.Text

/-!
# Numerals

Rows of digits in base ten and sixteen, and signs in front of them.
-/

namespace NodeCube.Text

inductive Radix where
  | decimal
  | hexadecimal
  deriving DecidableEq, Repr

namespace Radix

def base : Radix → Nat
  | .decimal => 10
  | .hexadecimal => 16

/-- The value of a digit. Hexadecimal digits are letters of either case. -/
def digit? (r : Radix) (b : UInt8) : Option Nat :=
  if isDigit b then some (b.toNat - 48)
  else match r with
    | .decimal => none
    | .hexadecimal =>
      if 65 ≤ upperByte b ∧ upperByte b ≤ 70 then some ((upperByte b).toNat - 55) else none

/-- The value of a row of digits, `n` being that of the digits before it. -/
def valueFrom? (r : Radix) (n : Nat) : Bytes → Option Nat
  | [] => some n
  | b :: rest =>
    match r.digit? b with
    | none => none
    | some d => r.valueFrom? (n * r.base + d) rest

/-- The value of a row of digits, which must not be empty. -/
def value? (r : Radix) (digits : Bytes) : Option Nat :=
  if digits.isEmpty then none else r.valueFrom? 0 digits

/-- The value of a row of digits as `valueFrom?` has it, if it is at most `limit`. Nothing is read
behind the digit that exceeds it. -/
def boundedFrom? (r : Radix) (limit n : Nat) : Bytes → Option Nat
  | [] => some n
  | b :: rest =>
    match r.digit? b with
    | none => none
    | some d =>
      if limit < n * r.base + d then none else r.boundedFrom? limit (n * r.base + d) rest

/-- The radix of an unsigned numeral, which `0x` makes hexadecimal, and its digits. -/
def split : Bytes → Radix × Bytes
  | 48 :: x :: digits =>
    if x = 'x'.toUInt8 ∨ x = 'X'.toUInt8 then (.hexadecimal, digits)
    else (.decimal, 48 :: x :: digits)
  | s => (.decimal, s)

end Radix

/-- Whether a numeral is negative, and what follows its sign. -/
def splitSign : Bytes → Bool × Bytes
  | [] => (false, [])
  | b :: rest =>
    if b = '-'.toUInt8 then (true, rest)
    else if b = '+'.toUInt8 then (false, rest)
    else (false, b :: rest)

end NodeCube.Text
