import NodeCube.Text

/-!
# Decimal text

Numbers are written in base ten without leading zeros, with a minus sign in front if negative.
-/

namespace NodeCube.Text

/-- The decimal digits of a natural number. -/
def natural (n : Nat) : Bytes := (Nat.toDigits 10 n).map Char.toUInt8

/-- The decimal text of an integer. -/
def integer (i : Int) : Bytes :=
  if i < 0 then '-'.toUInt8 :: natural i.natAbs else natural i.natAbs

/-- Fills up with spaces on the left. -/
def alignRight (width : Nat) (s : Bytes) : Bytes := s.leftpad width 32

/-- Fills up with spaces on the right. -/
def alignLeft (width : Nat) (s : Bytes) : Bytes := s.rightpad width 32

end NodeCube.Text
