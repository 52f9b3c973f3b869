import NodeCube.Word
import NodeCube.Target

/-!
# Instructions

The operations of a node, their mnemonics, and instructions with their text. An operation that
takes an operand comes in two modes: the operand is read from a target, or it is a word in the
instruction itself.
-/

namespace NodeCube

/-- Operations without an operand. -/
inductive Simple where
  | negate
  | invert
  | save
  | swap
  | idle
  deriving DecidableEq, Repr

/-- Operations that combine the accumulator with an operand. -/
inductive Arith where
  | add
  | sub
  | bitAnd
  | bitOr
  | bitXor
  | shiftLeft
  | shiftRight
  deriving DecidableEq, Repr

/-- What the accumulator has to satisfy for a jump to be taken. -/
inductive Condition where
  | always
  | zero
  | nonzero
  | positive
  | negative
  deriving DecidableEq, Repr

/-- Where an operand comes from. -/
inductive Mode where
  | target
  | immediate
  deriving DecidableEq, Repr

/-- What an instruction does. The assembler never emits `missing`. -/
inductive Operation where
  | missing
  | simple (op : Simple)
  | arith (op : Arith) (mode : Mode)
  | move (mode : Mode)
  | jump (cond : Condition)
  | jumpBy (mode : Mode)
  deriving DecidableEq, Repr

namespace Arith

/-- The new accumulator. -/
def apply : Arith → Word → Word → Word
  | .add, acc, v => acc.add v
  | .sub, acc, v => acc.sub v
  | .bitAnd, acc, v => acc &&& v
  | .bitOr, acc, v => acc ||| v
  | .bitXor, acc, v => acc ^^^ v
  | .shiftLeft, acc, v => acc.shiftLeft v
  | .shiftRight, acc, v => acc.shiftRight v

end Arith

namespace Condition

def holds (acc : Word) : Condition → Bool
  | .always => true
  | .zero => acc.toInt == 0
  | .nonzero => acc.toInt != 0
  | .positive => 0 < acc.toInt
  | .negative => acc.toInt < 0

end Condition

/-- The words a source line can start with. -/
inductive Mnemonic where
  | simple (op : Simple)
  | arith (op : Arith)
  | move
  | jump (cond : Condition)
  | jumpBy
  deriving DecidableEq, Repr

namespace Mnemonic

/-- The words that the assembler knows. -/
def table : List (Bytes × Mnemonic) :=
  [(ascii "ADD", .arith .add),
    (ascii "SUB", .arith .sub),
    (ascii "NEG", .simple .negate),
    (ascii "AND", .arith .bitAnd),
    (ascii "OR", .arith .bitOr),
    (ascii "XOR", .arith .bitXor),
    (ascii "NOT", .simple .invert),
    (ascii "SHL", .arith .shiftLeft),
    (ascii "SHR", .arith .shiftRight),
    (ascii "MOV", .move),
    (ascii "JMP", .jump .always),
    (ascii "JEZ", .jump .zero),
    (ascii "JNZ", .jump .nonzero),
    (ascii "JGZ", .jump .positive),
    (ascii "JLZ", .jump .negative),
    (ascii "JRO", .jumpBy),
    (ascii "SAV", .simple .save),
    (ascii "SWP", .simple .swap),
    (ascii "NOP", .simple .idle)]

def ofName? (s : Bytes) : Option Mnemonic := table.lookup s

end Mnemonic

namespace Operation

/-- Whether the operand is read from a target. -/
def readsSource : Operation → Bool
  | .arith _ .target | .move .target | .jumpBy .target => true
  | _ => false

/-- Whether the operation goes to a label. -/
def isJump : Operation → Bool
  | .jump _ => true
  | _ => false

/-- The word that the text of an instruction begins with. -/
def name : Operation → Bytes
  | .missing => ascii "???"
  | .arith .add _ => ascii "ADD"
  | .arith .sub _ => ascii "SUB"
  | .simple .negate => ascii "NEG"
  | .arith .bitAnd _ => ascii "AND"
  | .arith .bitOr _ => ascii "OR"
  | .arith .bitXor _ => ascii "XOR"
  | .simple .invert => ascii "NOT"
  | .arith .shiftLeft _ => ascii "SHL"
  | .arith .shiftRight _ => ascii "SHR"
  | .move _ => ascii "MOV"
  | .jump .always => ascii "JMP"
  | .jump .zero => ascii "JEZ"
  | .jump .nonzero => ascii "JNZ"
  | .jump .positive => ascii "JGZ"
  | .jump .negative => ascii "JLZ"
  | .jumpBy _ => ascii "JRO"
  | .simple .save => ascii "SAV"
  | .simple .swap => ascii "SWP"
  | .simple .idle => ascii "NOP"

end Operation

/-- An operation with all it may need; the fields that it does not use keep their defaults. -/
structure Instruction where
  op : Operation
  source : Target := .nil
  destination : Target := .nil
  value : Word := 0
  label : Bytes := []
  deriving DecidableEq, Repr

namespace Instruction

/-- The operand as it is written. -/
def operandText (i : Instruction) : Mode → Bytes
  | .target => i.source.name
  | .immediate => i.value.text

/-- The instruction as a source line. -/
def text (i : Instruction) : Bytes :=
  match i.op with
  | .missing | .simple _ => i.op.name
  | .arith _ mode | .jumpBy mode => i.op.name ++ ascii " " ++ i.operandText mode
  | .move mode => i.op.name ++ ascii " " ++ i.operandText mode ++ ascii ", " ++ i.destination.name
  | .jump _ => i.op.name ++ ascii " " ++ i.label

end Instruction

end NodeCube
