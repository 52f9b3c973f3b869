import NodeCube.Access
import NodeCube.Program

/-!
# Execution

In a step a program executes the instruction at its program counter. If that has to wait for a
neighbour, the same instruction goes on in the next step: a read stays begun, and a `MOV` that has
handed its word over is noted in the registers. A program counter outside the program counts as
zero, so running off the end starts over at the top.
-/

namespace NodeCube

/-- How far an instruction came. -/
inductive Progress where
  | complete
  | waiting
  deriving DecidableEq, Repr

namespace Execution

/-- Goes on to the next instruction. -/
def advance : Action Progress := do
  Action.update fun r => { r with pc := r.pc + 1 }
  return .complete

def jump (labels : Labels) (label : Bytes) : Action Progress :=
  match labels.find? label with
  | none => throw (.unknownLabel label)
  | some index => do
    Action.update ({ · with pc := index })
    return .complete

/-- Goes `offset` instructions on, but no further than the ends of a program of `size`. -/
def jumpBy (size : Nat) (offset : Word) : Action Progress := do
  Action.update fun r => { r with pc := min (max (r.pc + offset.toInt) 0) (size - 1) }
  return .complete

/-- Reads a word from a target, if there is one to read. -/
def fetch (t : Target) : Action (Option Word) := do
  let reading ← t.isReading
  if reading then pure () else t.beginRead
  let ready ← t.canTransfer
  if ready then
    let v ← t.read
    return some v
  else return none

/-- The operand of an instruction, if it is there. -/
def operand (i : Instruction) : Mode → Action (Option Word)
  | .immediate => pure (some i.value)
  | .target => fetch i.source

/-- Goes on with the operand of an instruction, or waits for it. -/
def withOperand (i : Instruction) (mode : Mode) (k : Word → Action Progress) : Action Progress := do
  let v ← operand i mode
  match v with
  | none => return .waiting
  | some v => k v

/-- Hands a word to a target. -/
def deliver (t : Target) (v : Word) : Action Progress := do
  let done ← t.beginWrite v
  if done then advance
  else
    Action.update ({ · with writeInFlight := true })
    return .waiting

/-- Waits until the word that was handed to a target is taken. -/
def awaitTaken (t : Target) : Action Progress := do
  let writing ← t.isWriting
  if writing then return .waiting
  else
    Action.update ({ · with writeInFlight := false })
    advance

def move (i : Instruction) (mode : Mode) : Action Progress := do
  let r ← Action.registers
  if r.writeInFlight then awaitTaken i.destination
  else withOperand i mode (deliver i.destination)

/-- The registers after an operation without operand. -/
def simple (op : Simple) (r : Registers) : Registers :=
  match op with
  | .negate => { r with acc := r.acc.neg }
  | .invert => { r with acc := ~~~r.acc }
  | .save => { r with bak := r.acc }
  | .swap => { r with acc := r.bak, bak := r.acc }
  | .idle => r

def execute (program : Program) (i : Instruction) : Action Progress :=
  match i.op with
  | .missing => do
    let r ← Action.registers
    throw (.missingInstruction r.pc)
  | .simple op => do
    Action.update (simple op)
    advance
  | .arith op mode =>
    withOperand i mode fun v => do
      Action.update fun r => { r with acc := op.apply r.acc v }
      advance
  | .move mode => move i mode
  | .jump cond => do
    let r ← Action.registers
    if cond.holds r.acc then jump program.labels i.label else advance
  | .jumpBy mode => withOperand i mode (jumpBy program.instructions.length)

/-- The program counter of the next instruction in a program of `size`. -/
def startPc (size : Nat) (pc : Int) : Int := if 0 ≤ pc ∧ pc < size then pc else 0

/-- The program counter after an instruction: past the end comes the top. -/
def wrapPc (size : Nat) (pc : Int) : Int := if size ≤ pc then 0 else pc

/-- Notes how an instruction ended. -/
def conclude (size : Nat) (progress : Progress) (r : Registers) : Registers :=
  { r with stalled := progress == .waiting, pc := wrapPc size r.pc }

end Execution

/-- One step of a program. -/
def Program.step (program : Program) : Action Unit := do
  let r ← Action.registers
  let size := program.instructions.length
  let pc := Execution.startPc size r.pc
  match program.instructions[pc.toNat]? with
  | none => return ()
  | some i =>
    Action.update ({ · with pc })
    let progress ← Execution.execute program i
    Action.update (Execution.conclude size progress)

end NodeCube
