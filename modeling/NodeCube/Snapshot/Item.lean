import NodeCube.Snapshot.Reader

/-!
# Snapshot items

A snapshot is a row of items of six types. `Item.encode` writes one and `ItemType.read` reads one.
-/

namespace NodeCube.Snapshot

inductive ItemType where
  | byte
  | number16
  | word
  | number32
  | text
  | blob
  deriving DecidableEq, Repr

inductive Item where
  | byte (n : UInt8)
  | number16 (n : UInt16)
  | word (w : Word)
  | number32 (n : UInt32)
  | text (s : Bytes)
  | blob (s : Bytes)
  deriving DecidableEq, Repr

namespace Item

def type : Item → ItemType
  | .byte _ => .byte
  | .number16 _ => .number16
  | .word _ => .word
  | .number32 _ => .number32
  | .text _ => .text
  | .blob _ => .blob

def encode : Item → Bytes
  | .byte n => [n]
  | .number16 n => encode16 n
  | .word w => encodeWord w
  | .number32 n => encode32 n
  | .text s | .blob s => encodeBlock s

end Item

namespace ItemType

def read : ItemType → Reader Item
  | .byte => Item.byte <$> Reader.byte
  | .number16 => Item.number16 <$> Reader.number16
  | .word => Item.word <$> Reader.word
  | .number32 => Item.number32 <$> Reader.number32
  | .text => Item.text <$> Reader.block
  | .blob => Item.blob <$> Reader.block

end ItemType

end NodeCube.Snapshot
