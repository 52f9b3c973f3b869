import NodeCube.Snapshot.Error
import NodeCube.Word

/-!
# Reading and writing snapshot bytes

Numbers are big-endian; a block of bytes is preceded by its length in 32 bits. For each `encode`
function there is a reader that takes its bytes off the front of the input.

A reader that fails stays where the item begins, except that a 32-bit number consists of two halves
and the first may have been taken already, and that a block's length may have been taken.
-/

namespace NodeCube.Snapshot

/-! ## Writing -/

def encode16 (n : UInt16) : Bytes := [UInt8.ofNat (n.toNat / 256), UInt8.ofNat n.toNat]

def encodeWord (w : Word) : Bytes := encode16 w.toUInt16

def encode32 (n : UInt32) : Bytes :=
  encode16 (UInt16.ofNat (n.toNat / 65536)) ++ encode16 (UInt16.ofNat n.toNat)

/-- A block of bytes after its length, which is kept modulo 2^32. -/
def encodeBlock (s : Bytes) : Bytes := encode32 (UInt32.ofNat s.length) ++ s

/-- Eight flags in a byte, the first in the lowest bit. -/
def encodeFlags : List Bool → UInt8
  | [] => 0
  | b :: rest => (if b then 1 else 0) + 2 * encodeFlags rest

/-- The flag in bit `i` of a byte. -/
def flag (n : UInt8) (i : Nat) : Bool := n.toNat.testBit i

/-! ## Reading -/

/-- The bytes not read yet and how many were read. -/
structure Cursor where
  rest : Bytes
  position : Nat
  deriving DecidableEq, Repr

/-- The start of the input. -/
def Cursor.start (bytes : Bytes) : Cursor := ⟨bytes, 0⟩

def Cursor.atEnd (c : Cursor) : Bool := c.rest.isEmpty

/-- Something that reads an `α` off the input. -/
abbrev Reader (α : Type) := EStateM SnapshotError Cursor α

namespace Reader

/-- Takes `n` bytes. -/
def take (n : Nat) : Reader Bytes := fun c =>
  if c.rest.length < n then .error (.truncated c.position) c
  else .ok (c.rest.take n) ⟨c.rest.drop n, c.position + n⟩

def byte : Reader UInt8 := fun c =>
  match c.rest with
  | b :: rest => .ok b ⟨rest, c.position + 1⟩
  | [] => .error (.truncated c.position) c

def number16 : Reader UInt16 := fun c =>
  match c.rest with
  | a :: b :: rest => .ok (UInt16.ofNat (a.toNat * 256 + b.toNat)) ⟨rest, c.position + 2⟩
  | _ => .error (.truncated c.position) c

def word : Reader Word := do
  let n ← number16
  return n.toInt16

def number32 : Reader UInt32 := do
  let high ← number16
  let low ← number16
  return UInt32.ofNat (high.toNat * 65536 + low.toNat)

def block : Reader Bytes := do
  let n ← number32
  take n.toNat

end Reader

end NodeCube.Snapshot
